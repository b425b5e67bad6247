import RhythmTiles.Proofs.Binary64.Arithmetic

/-!
# How accurate doubles are

Rounding shifts a number by at most one part in `2 ^ 53` (`Nearest.abs_sub_le`). So a computed number
stays `Within` so many parts in `2 ^ 52` of the exact one: a sum is one part worse than the worse of its
terms (`Within.add`), a product or quotient with an exact number one part (`Within.mul_exact`,
`Within.div_exact`), and a quotient by an inexact number two parts (`Within.exact_div`). The whole number
nearest to a double is at most a half away (`nearestInt64_near`).
-/

namespace RhythmTiles.Binary64

/-! ## One rounding -/

/-- **Rounding shifts by at most one part in `2 ^ 53`**, far above the smallest numbers. -/
theorem Nearest.abs_sub_le {x r : Rat} (h : Nearest x r) (hx : 2⁻¹ ^ 1000 ≤ x) :
    |r - x| ≤ 2⁻¹ ^ 53 * x := by
  have hpos : 0 < x := lt_of_lt_of_le (by positivity) hx
  obtain ⟨e, hlow, hhigh⟩ := exists_mem_Ico_zpow hpos (one_lt_two : (1 : Rat) < 2)
  have he : -1000 < e + 1 := by
    have hlt : (2 : Rat) ^ (-1000 : Int) < 2 ^ (e + 1) := by
      refine lt_of_le_of_lt ?_ hhigh
      rwa [zpow_neg, ← inv_zpow, zpow_ofNat]
    exact (zpow_lt_zpow_iff_right₀ one_lt_two).1 hlt
  -- the unit in the last place
  have hunit : (0 : Rat) < 2 ^ (e - 52) := zpow_pos two_pos (e - 52)
  have hfull : (2 : Rat) ^ e = 2 ^ 52 * 2 ^ (e - 52) := by
    rw [zpow_sub₀ two_ne_zero]
    norm_num
    ring
  have hnext : (2 : Rat) ^ (e + 1) = 2 ^ 53 * 2 ^ (e - 52) := by
    rw [zpow_add_one₀ two_ne_zero, hfull]
    ring
  obtain ⟨y, hy⟩ : ∃ y, y * 2 ^ (e - 52) = x := ⟨_, div_mul_cancel₀ x hunit.ne'⟩
  have hround := abs_sub_round y
  have hlow' : 2 ^ 52 ≤ y := by
    rw [← hy, hfull] at hlow
    exact le_of_mul_le_mul_right hlow hunit
  have hhigh' : y < 2 ^ 53 := by
    rw [← hy, hnext] at hhigh
    exact lt_of_mul_lt_mul_right hhigh hunit.le
  have hgrid : Grid (round y * 2 ^ (e - 52)) := by
    have hle : round y ≤ 2 ^ 53 := by
      have hlt : (round y : Rat) < 2 ^ 53 + 1 := by
        have := (abs_le.1 hround).1
        linarith
      exact Int.lt_add_one_iff.1 (by exact_mod_cast hlt)
    have hge : 0 ≤ round y := by
      have hlt : (-1 : Rat) < round y := by
        have := (abs_le.1 hround).2
        linarith
      exact Int.add_one_le_iff.2 (by exact_mod_cast hlt)
    rcases hle.eq_or_lt with heq | hlt
    · -- the next power of two
      refine ⟨1, e + 1, by norm_num, by omega, ?_⟩
      rw [heq, hnext]
      norm_num
    · exact ⟨round y, e - 52, by rwa [abs_of_nonneg hge], by omega, rfl⟩
  calc |r - x| ≤ |round y * 2 ^ (e - 52) - x| := h _ hgrid
    _ = |y - round y| * 2 ^ (e - 52) := by
      rw [← hy, ← sub_mul, abs_mul, abs_of_pos hunit, abs_sub_comm]
    _ ≤ 1 / 2 * 2 ^ (e - 52) := mul_le_mul_of_nonneg_right hround hunit.le
    _ = 2⁻¹ ^ 53 * (2 ^ 52 * 2 ^ (e - 52)) := by
      rw [← mul_assoc]
      norm_num
    _ ≤ 2⁻¹ ^ 53 * (y * 2 ^ (e - 52)) :=
      mul_le_mul_of_nonneg_left (mul_le_mul_of_nonneg_right hlow' hunit.le) (by positivity)
    _ = 2⁻¹ ^ 53 * x := by rw [hy]

/-! ## So many parts -/

/-- A double is within `m` parts in `2 ^ 52` of an exact number. -/
def Within (m : Nat) (x : Float) (a : Rat) : Prop :=
  ∃ r, value? x = some r ∧ |r - a| ≤ m * 2⁻¹ ^ 52 * a

/-- A number that is neither tiny nor huge, so that its rounding is relative and stays a number. -/
def Ordinary (a : Rat) : Prop := 2⁻¹ ^ 100 ≤ a ∧ a ≤ 2 ^ 50

variable {m n : Nat} {x y : Float} {a b c : Rat}

theorem Ordinary.pos (h : Ordinary a) : 0 < a := lt_of_lt_of_le (by positivity) h.1

theorem Within.mono (h : Within m x a) (hmn : m ≤ n) (ha : 0 ≤ a) : Within n x a := by
  obtain ⟨r, hr, hle⟩ := h
  have hcast : (m : Rat) ≤ n := by exact_mod_cast hmn
  refine ⟨r, hr, hle.trans ?_⟩
  gcongr

theorem within_of_value (h : value? x = some a) : Within 0 x a :=
  ⟨a, h, by simp⟩

/-- Rounding what is within `m` parts gives what is within `m + 1` parts. -/
theorem RoundsTo.within (h : RoundsTo c x) (hc : |c - a| ≤ m * 2⁻¹ ^ 52 * a) (ha : Ordinary a)
    (hm : m ≤ 2 ^ 40) : Within (m + 1) x a := by
  have hpos := ha.pos
  obtain ⟨hlow, hhigh⟩ := ha
  have hcast : (m : Rat) ≤ 2 ^ 40 := by exact_mod_cast hm
  have hsmall : m * 2⁻¹ ^ 52 * a ≤ 1 / 2 * a := by
    refine mul_le_mul_of_nonneg_right ?_ hpos.le
    calc (m : Rat) * 2⁻¹ ^ 52 ≤ 2 ^ 40 * 2⁻¹ ^ 52 := by gcongr
      _ ≤ 1 / 2 := by norm_num
  obtain ⟨hbelow, habove⟩ := abs_le.1 hc
  -- `c` is no less than half of `a`, so its rounding is relative, too
  have hhalf : 1 / 2 * a ≤ c := by linarith
  have hcpos : 2⁻¹ ^ 1000 ≤ c := by
    calc (2⁻¹ : Rat) ^ 1000 ≤ 2⁻¹ ^ 101 :=
          pow_le_pow_of_le_one (by norm_num) (by norm_num) (by norm_num)
      _ = 1 / 2 * 2⁻¹ ^ 100 := by ring
      _ ≤ 1 / 2 * a := mul_le_mul_of_nonneg_left hlow (by norm_num)
      _ ≤ c := hhalf
  have hclarge : |c| ≤ (2 ^ 51 : Nat) := by
    have hnonneg : 0 ≤ c := le_trans (by positivity) hhalf
    rw [abs_of_nonneg hnonneg]
    push_cast
    linarith
  obtain ⟨r, hr, hnearest⟩ := h.value_of_le (by norm_num) hclarge
  refine ⟨r, hr, ?_⟩
  have hrounded := hnearest.abs_sub_le hcpos
  have hpart : 2⁻¹ ^ 53 * c ≤ 2⁻¹ ^ 52 * a := by
    have hdouble : (2⁻¹ : Rat) ^ 53 * (2 * a) = 2⁻¹ ^ 52 * a := by ring
    rw [← hdouble]
    exact mul_le_mul_of_nonneg_left (by linarith) (by positivity)
  calc |r - a| ≤ |r - c| + |c - a| := abs_sub_le r c a
    _ ≤ 2⁻¹ ^ 52 * a + m * 2⁻¹ ^ 52 * a := by linarith
    _ = (m + 1 : Nat) * 2⁻¹ ^ 52 * a := by
      push_cast
      ring

/-- **A sum is one part worse than its worse term.** -/
theorem Within.add (hx : Within m x a) (hy : Within m y b) (h : Ordinary (a + b)) (hm : m ≤ 2 ^ 40) :
    Within (m + 1) (x + y) (a + b) := by
  obtain ⟨r, hr, hra⟩ := hx
  obtain ⟨s, hs, hsb⟩ := hy
  refine (roundsTo_add hr hs).within ?_ h hm
  calc |r + s - (a + b)| = |(r - a) + (s - b)| := by rw [add_sub_add_comm]
    _ ≤ |r - a| + |s - b| := abs_add_le _ _
    _ ≤ m * 2⁻¹ ^ 52 * a + m * 2⁻¹ ^ 52 * b := add_le_add hra hsb
    _ = m * 2⁻¹ ^ 52 * (a + b) := by ring

theorem Within.mul_exact (hx : Within m x a) (hy : value? y = some b) (hb : 0 ≤ b)
    (h : Ordinary (a * b)) (hm : m ≤ 2 ^ 40) : Within (m + 1) (x * y) (a * b) := by
  obtain ⟨r, hr, hra⟩ := hx
  refine (roundsTo_mul hr hy).within ?_ h hm
  rw [← sub_mul, abs_mul, abs_of_nonneg hb, ← mul_assoc]
  exact mul_le_mul_of_nonneg_right hra hb

theorem Within.div_exact (hx : Within m x a) (hy : value? y = some b) (hb : 0 < b)
    (h : Ordinary (a / b)) (hm : m ≤ 2 ^ 40) : Within (m + 1) (x / y) (a / b) := by
  obtain ⟨r, hr, hra⟩ := hx
  refine (roundsTo_div hr hy hb.ne').within ?_ h hm
  rw [← sub_div, abs_div, abs_of_pos hb, ← mul_div_assoc]
  exact div_le_div_of_nonneg_right hra hb.le

/-- **A quotient by an inexact number is two parts worse than it.** -/
theorem Within.exact_div (hx : value? x = some a) (ha : 0 ≤ a) (hy : Within m y b) (hb : 0 < b)
    (h : Ordinary (a / b)) (hm : m ≤ 2 ^ 20) : Within (m + 2) (x / y) (a / b) := by
  obtain ⟨s, hs, hsb⟩ := hy
  have hcast : (m : Rat) ≤ 2 ^ 20 := by exact_mod_cast hm
  have hsmall : (m : Rat) * (m + 1) * 2⁻¹ ^ 52 ≤ 1 := by
    calc (m : Rat) * (m + 1) * 2⁻¹ ^ 52 ≤ 2 ^ 20 * (2 ^ 20 + 1) * 2⁻¹ ^ 52 := by gcongr
      _ ≤ 1 := by norm_num
  -- dividing by a little less costs one part more than was missing
  have hshare : (m : Rat) * 2⁻¹ ^ 52 ≤ (m + 1) * 2⁻¹ ^ 52 * (1 - m * 2⁻¹ ^ 52) := by
    have hunit : (0 : Rat) ≤ 2⁻¹ ^ 52 := by positivity
    have := mul_le_mul_of_nonneg_right hsmall hunit
    linarith
  have hbelow := (abs_le.1 hsb).1
  have hspos : 0 < s := by
    have hle : (m : Rat) * 2⁻¹ ^ 52 ≤ 1 / 2 := by
      calc (m : Rat) * 2⁻¹ ^ 52 ≤ 2 ^ 20 * 2⁻¹ ^ 52 := by gcongr
        _ ≤ 1 / 2 := by norm_num
    have := mul_le_mul_of_nonneg_right hle hb.le
    linarith
  have hquotient : 0 ≤ a / b := div_nonneg ha hb.le
  refine (roundsTo_div hx hs hspos.ne').within (m := m + 1) ?_ h (by omega)
  refine le_of_mul_le_mul_right ?_ hspos
  have hscaled : (a / s - a / b) * s = -(a / b * (s - b)) := by
    field_simp
    ring
  have hshift : |a / s - a / b| * s = a / b * |s - b| := by
    calc |a / s - a / b| * s = |(a / s - a / b) * s| := by rw [abs_mul, abs_of_pos hspos]
      _ = a / b * |s - b| := by rw [hscaled, abs_neg, abs_mul, abs_of_nonneg hquotient]
  calc |a / s - a / b| * s = a / b * |s - b| := hshift
    _ ≤ a / b * (m * 2⁻¹ ^ 52 * b) := mul_le_mul_of_nonneg_left hsb hquotient
    _ ≤ a / b * ((m + 1) * 2⁻¹ ^ 52 * (1 - m * 2⁻¹ ^ 52) * b) :=
      mul_le_mul_of_nonneg_left (mul_le_mul_of_nonneg_right hshare hb.le) hquotient
    _ = (m + 1 : Nat) * 2⁻¹ ^ 52 * (a / b) * ((1 - m * 2⁻¹ ^ 52) * b) := by
      push_cast
      ring
    _ ≤ (m + 1 : Nat) * 2⁻¹ ^ 52 * (a / b) * s :=
      mul_le_mul_of_nonneg_left (by linarith) (by positivity)

/-- **Adding up terms makes a sum worse by one part a term.** -/
theorem Within.foldl_add {xs : List Float} {as : List Rat} (hx : Within n x a) (hmn : m ≤ n)
    (hxs : List.Forall₂ (Within m) xs as) (ha : 0 ≤ a) (has : ∀ b ∈ as, 2⁻¹ ^ 100 ≤ b)
    (hsum : a + as.sum ≤ 2 ^ 50) (hn : n + xs.length ≤ 2 ^ 40) :
    Within (n + xs.length) (xs.foldl (· + ·) x) (a + as.sum) := by
  induction hxs generalizing n x a with
  | nil => simpa using hx
  | @cons y b xs as hy _ ih =>
    obtain ⟨hb, has⟩ := List.forall_mem_cons.1 has
    have hpos : 0 ≤ as.sum := List.sum_nonneg fun c hc => le_trans (by positivity) (has c hc)
    have hbpos : 0 ≤ b := le_trans (by positivity) hb
    rw [List.length_cons] at hn
    rw [List.sum_cons, ← add_assoc] at hsum
    have hterm := hx.add (hy.mono hmn hbpos) ⟨by linarith, by linarith⟩ (by omega)
    have hrest := ih hterm (by omega) (by linarith) has hsum (by omega)
    rw [Nat.add_right_comm n, add_assoc a] at hrest
    rw [List.foldl_cons, List.sum_cons]
    exact hrest

/-- So many parts of a number are little as long as the number is not too large. -/
theorem Within.near (h : Within m x a) (hm : m * a ≤ 7 * 10 ^ 12) :
    ∃ r, value? x = some r ∧ |r - a| ≤ 1 / 500 := by
  obtain ⟨r, hr, hle⟩ := h
  refine ⟨r, hr, hle.trans ?_⟩
  calc m * 2⁻¹ ^ 52 * a = m * a * 2⁻¹ ^ 52 := by ring
    _ ≤ 7 * 10 ^ 12 * 2⁻¹ ^ 52 := mul_le_mul_of_nonneg_right hm (by positivity)
    _ ≤ 1 / 500 := by norm_num

/-! ## Whole numbers -/

/-- Among whole numbers of 52 bits rounding shifts by at most a half. -/
theorem Nearest.abs_sub_le_half {r : Rat} (h : Nearest a r) (ha : |a| ≤ 2 ^ 52) : |r - a| ≤ 1 / 2 := by
  have hround := abs_sub_round a
  have hgrid : Grid (round a) := by
    have hlt : |(round a : Rat)| < 2 ^ 53 := by
      calc |(round a : Rat)| = |a - (a - round a)| := by rw [sub_sub_cancel]
        _ ≤ |a| + |a - round a| := abs_sub _ _
        _ < 2 ^ 53 := by linarith
    exact ⟨round a, 0, by exact_mod_cast hlt, by norm_num, by simp⟩
  calc |r - a| ≤ |round a - a| := h _ hgrid
    _ ≤ 1 / 2 := by rwa [abs_sub_comm]

/-- The nearest whole number is at most a half away. -/
theorem Parts.abs_nearest_sub_le (p : Parts) : |(p.nearest : Rat) - p.value| ≤ 1 / 2 := by
  have hden : 0 < p.den := Nat.pow_pos two_pos
  have hden' : (0 : Rat) < p.den := by exact_mod_cast hden
  -- a half more than the quotient, rounded down
  obtain ⟨k, hk⟩ : ∃ k : Nat, k = (2 * p.num.natAbs + p.den) / (2 * p.den) := ⟨_, rfl⟩
  have hmod := Nat.mod_lt (2 * p.num.natAbs + p.den) (by omega : 0 < 2 * p.den)
  have hdiv := Nat.div_add_mod (2 * p.num.natAbs + p.den) (2 * p.den)
  rw [← hk] at hdiv
  have hnear : |(k : Rat) - p.num.natAbs / p.den| ≤ 1 / 2 := by
    have hlow : 2 * p.den * k ≤ 2 * p.num.natAbs + p.den := by omega
    have hhigh : 2 * p.num.natAbs + p.den < 2 * p.den * k + 2 * p.den := by omega
    have hlow : (2 * p.den * k : Rat) ≤ 2 * p.num.natAbs + p.den := by exact_mod_cast hlow
    have hhigh : (2 * p.num.natAbs + p.den : Rat) < 2 * p.den * k + 2 * p.den := by
      exact_mod_cast hhigh
    have hquotient : (p.num.natAbs : Rat) / p.den * p.den = p.num.natAbs :=
      div_mul_cancel₀ _ hden'.ne'
    rw [abs_le]
    constructor <;> nlinarith
  have hnearest : p.nearest = if p.negative then -(k : Int) else k := by
    rw [hk]
    unfold nearest
    push_cast
    rfl
  rw [hnearest, p.value_eq_div]
  have hsigned : p.num = if p.negative then -(p.num.natAbs : Int) else p.num.natAbs := by
    have hpow : (0 : Int) ≤ Nat.pow 2 p.exponent.toNat := Int.natCast_nonneg _
    unfold num signed
    by_cases hnegative : p.negative
    · rw [if_pos hnegative, if_pos hnegative, Int.neg_mul, Int.natAbs_neg,
        Int.natAbs_of_nonneg (Int.mul_nonneg (Int.natCast_nonneg _) hpow)]
    · rw [if_neg hnegative, if_neg hnegative,
        Int.natAbs_of_nonneg (Int.mul_nonneg (Int.natCast_nonneg _) hpow)]
  by_cases hnegative : p.negative
  · rw [if_pos hnegative] at hsigned ⊢
    rw [hsigned, Int.cast_neg, Int.cast_neg, Int.cast_natCast, Int.cast_natCast, neg_div,
      neg_sub_neg, abs_sub_comm]
    exact hnear
  · rw [if_neg hnegative] at hsigned ⊢
    rw [hsigned, Int.cast_natCast, Int.cast_natCast]
    exact hnear

theorem nearestInt64_near (hx : value? x = some a) (ha : |a| ≤ 2 ^ 62) :
    |(nearestInt64 x : Rat) - a| ≤ 1 / 2 := by
  obtain ⟨p, hp, rfl⟩ := Option.map_eq_some_iff.1 hx
  have hnear := p.abs_nearest_sub_le
  have hrange : clampInt64 p.nearest = p.nearest := by
    obtain ⟨hlow, hhigh⟩ := abs_le.1 ha
    obtain ⟨hlow', hhigh'⟩ := abs_le.1 hnear
    have hmin : (-2 ^ 63 : Rat) ≤ p.nearest := by linarith
    have hmax : (p.nearest : Rat) ≤ 2 ^ 63 - 1 := by linarith
    have hmin : -2 ^ 63 ≤ p.nearest := by exact_mod_cast hmin
    have hmax : p.nearest ≤ 2 ^ 63 - 1 := by exact_mod_cast hmax
    unfold clampInt64
    omega
  rw [nearestInt64, hp]
  simp only [hrange]
  exact hnear

end RhythmTiles.Binary64
