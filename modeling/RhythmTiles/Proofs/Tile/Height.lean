import RhythmTiles.BaseBeats
import RhythmTiles.Proofs.Binary64.Arithmetic
import RhythmTiles.Tile.Row
import RhythmTiles.Track.Basic

/-!
# Heights of rows and ticks of letters

A row's height divides by the base beats themselves, and ticks go by the table's entry, which may be a
billionth away. Up to the tick limit both give the same number of tiles, but for one case: base beats
above their entry take a whole number of quarter notes for one tile less (`heightOf_eq`).
-/

namespace RhythmTiles

open Binary64

namespace BaseBeats

/-! ## The table -/

/-- Whether an entry is the greatest double whose ticks do not exceed a quarter note a tile, up to one
part in `10 ^ 14`, whose successor is a whole rounding step too large; and whether its ticks share so
much with a quarter note that heights below the tick limit keep away from whole numbers. -/
def isTight (entry : Float × Nat) : Bool :=
  match parts? entry.1 with
  | some ⟨false, m, .negSucc k⟩ =>
    2 ^ 52 ≤ m && 0 < entry.2 && m * entry.2 ≤ 30 * 2 ^ (k + 1)
      && 30 * 2 ^ (k + 1) * (10 ^ 14 - 1) ≤ m * entry.2 * 10 ^ 14
      && 30 * 2 ^ (k + 1) * 2 ^ 53 ≤ (m + 1) * entry.2 * (2 ^ 53 - 1)
      && 960 * (10 ^ 7 + 6144 * entry.2 ^ 2) ≤ Nat.gcd entry.2 960 * (1024 * 10 ^ 7)
  | _ => false

theorem isTight_of_mem_table {entry : Float × Nat} (h : entry ∈ table) : isTight entry = true := by
  have hall : table.all isTight = true := by decide +kernel
  exact List.all_eq_true.1 hall entry h

theorem eq_of_mem_table {v w : Float} {t : Nat} (hv : (v, t) ∈ table) (hw : (w, t) ∈ table) :
    v = w := by
  have hall : table.all (fun e => table.all fun e' => e.2 ≠ e'.2 || e.1 = e'.1) = true := by
    decide +kernel
  have hsame := List.all_eq_true.1 (List.all_eq_true.1 hall _ hv) _ hw
  simpa using hsame

/-- What an entry is in exact numbers. -/
structure Exact (v : Rat) (t : Nat) : Prop where
  pos : 0 < t
  below : v * t ≤ 30
  near : 30 * (1 - 1 / 10 ^ 14) ≤ v * t
  /-- All greater doubles are a rounding step too large. -/
  above : ∀ b, Grid b → v < b → 30 ≤ b * t * (1 - 2⁻¹ ^ 53)
  margin : 1 / 1024 + 6 / 10 ^ 7 * (t : Rat) ^ 2 ≤ Nat.gcd t 960 / 960

theorem exact_of_mem_table {v : Float} {t : Nat} (h : (v, t) ∈ table) :
    ∃ q, value? v = some q ∧ Exact q t := by
  have htight := isTight_of_mem_table h
  unfold isTight at htight
  split at htight
  · rename_i m k hparts
    simp only [Bool.and_eq_true, decide_eq_true_eq] at htight
    obtain ⟨⟨⟨⟨⟨hfull, hpos⟩, hbelow⟩, hnear⟩, habove⟩, hmargin⟩ := htight
    have hpow : (0 : Rat) < 2 ^ (k + 1) := by positivity
    have hunit : (2 : Rat) ^ Int.negSucc k = 1 / 2 ^ (k + 1) := by
      rw [zpow_negSucc, one_div]
    -- what was decided in whole numbers is divided by the power of two under the entry
    refine ⟨m * 2 ^ Int.negSucc k, ?_, hpos, ?_, ?_, ?_, ?_⟩
    · rw [value?, hparts]
      simp [Parts.value, Parts.signed]
    · rw [hunit, mul_one_div, div_mul_eq_mul_div, div_le_iff₀ hpow]
      exact_mod_cast hbelow
    · have hnear : ((30 * 2 ^ (k + 1) * (10 ^ 14 - 1) : Nat) : Rat) ≤ (m * t * 10 ^ 14 : Nat) := by
        exact_mod_cast hnear
      rw [hunit, mul_one_div, div_mul_eq_mul_div, le_div_iff₀ hpow]
      push_cast at hnear
      linarith
    · intro b hb hlt
      have hnext := hb.succ_le hfull hlt
      have habove : ((30 * 2 ^ (k + 1) * 2 ^ 53 : Nat) : Rat) ≤ ((m + 1) * t * (2 ^ 53 - 1) : Nat) := by
        exact_mod_cast habove
      have hscaled : (30 : Rat) ≤ ((m + 1 : Nat) : Rat) * 2 ^ Int.negSucc k * t * (1 - 2⁻¹ ^ 53) := by
        rw [hunit, mul_one_div, div_mul_eq_mul_div, div_mul_eq_mul_div, le_div_iff₀ hpow]
        push_cast at habove ⊢
        linarith
      refine hscaled.trans (mul_le_mul_of_nonneg_right ?_ (by norm_num))
      exact mul_le_mul_of_nonneg_right hnext (Nat.cast_nonneg t)
    · have hmargin : ((960 * (10 ^ 7 + 6144 * t ^ 2) : Nat) : Rat) ≤
          (Nat.gcd t 960 * (1024 * 10 ^ 7) : Nat) := by
        exact_mod_cast hmargin
      push_cast at hmargin
      rw [le_div_iff₀ (by norm_num)]
      linarith
  · cases htight

/-! ## Looking up -/

section

variable {v b : Float} {t : Nat} {q p : Rat}

theorem mem_of_ticksPerUnit? (h : ticksPerUnit? b = some t) :
    ∃ v, (v, t) ∈ table ∧ (v - b).abs < 1e-9 := by
  obtain ⟨⟨v, u⟩, hfind, rfl⟩ := Option.map_eq_some_iff.1 h
  have hclose := List.find?_some hfind
  exact ⟨v, List.mem_of_find?_eq_some hfind, of_decide_eq_true hclose⟩

theorem value_tolerance : ∃ c, value? 1e-9 = some c ∧ c < 10001 / 10 ^ 13 := by
  have hparts : parts? 1e-9 = some ⟨false, 4835703278458517, -82⟩ := by decide +kernel
  refine ⟨4835703278458517 * 2 ^ (-82 : Int), ?_, by norm_num⟩
  rw [value?, hparts]
  simp [Parts.value, Parts.signed]

/-- Within the tolerance there are only numbers, and rounding the difference does not hide a larger
one. -/
theorem value_of_tolerance (hv : value? v = some q) (h : (v - b).abs < 1e-9) :
    ∃ p, value? b = some p ∧ |p - q| < 10001 / 10 ^ 13 := by
  obtain ⟨c, hc, hsmall⟩ := value_tolerance
  obtain ⟨r, hr, hlt⟩ := value_of_abs_lt hc h
  obtain ⟨hlow, hhigh⟩ := abs_lt.1 hlt
  cases hb : value? b with
  | none =>
    rw [value?_sub_eq_none hv hb] at hr
    cases hr
  | some p =>
    refine ⟨p, rfl, (abs_sub_comm p q).trans_lt (lt_of_not_ge fun hlarge => ?_)⟩
    obtain ⟨r', hnearest, hr' | ⟨hr', -⟩⟩ := roundsTo_sub hv hb
    · obtain rfl : r = r' := Option.some.inj (hr.symm.trans hr')
      have hgrid := grid_of_value hc
      rcases le_abs.1 hlarge with hlarge | hlarge
      · exact absurd (hnearest.ge hgrid (by linarith)) (not_le.2 hhigh)
      · exact absurd (hnearest.le hgrid.neg (by linarith)) (not_le.2 hlow)
    · rw [hr] at hr'
      cases hr'

end

end BaseBeats

/-! ## The quotient -/

/-- Base beats are `ratio` times what their ticks say. -/
structure TileRatio (t : Nat) (ratio : Rat) : Prop where
  pos : 0 < t
  margin : 1 / 1024 + 6 / 10 ^ 7 * (t : Rat) ^ 2 ≤ Nat.gcd t 960 / 960
  near : |ratio - 1| ≤ 334 / 10 ^ 13 * t

/-- Over such base beats a duration of `d` letters lasts `tiles` tiles, before the quotient is
rounded. -/
structure TileQuotient (d t : Nat) (ratio tiles : Rat) : Prop extends TileRatio t ratio where
  limit : d ≤ 0xFFFFFF
  eq : tiles * ratio = (d * t : Nat) / 960

theorem BaseBeats.Exact.tileRatio {q p : Rat} {t : Nat} (h : Exact q t)
    (hclose : |p - q| < 10001 / 10 ^ 13) : TileRatio t (p * t / 30) := by
  have ht : (1 : Rat) ≤ t := by exact_mod_cast h.pos
  have hbelow := h.below
  have hnear := h.near
  obtain ⟨hlow, hhigh⟩ := abs_lt.1 hclose
  have hlow := mul_le_mul_of_nonneg_right hlow.le (zero_le_one.trans ht)
  have hhigh := mul_le_mul_of_nonneg_right hhigh.le (zero_le_one.trans ht)
  rw [sub_mul] at hlow hhigh
  refine ⟨h.pos, h.margin, abs_le.2 ⟨?_, ?_⟩⟩ <;> linarith

namespace TileRatio

variable {t : Nat} {ratio : Rat} (h : TileRatio t ratio)
include h

theorem ticks_lt : t < 2 ^ 11 := by
  by_contra hlarge
  have hlarge : ((2 ^ 11 : Nat) : Rat) ≤ t := by exact_mod_cast not_lt.1 hlarge
  have hshare : (Nat.gcd t 960 : Rat) ≤ (960 : Nat) := by
    exact_mod_cast Nat.gcd_le_right t (by norm_num)
  have hmargin := h.margin
  push_cast at hlarge hshare
  nlinarith

theorem half_lt_ratio : 1 / 2 < ratio := by
  have ht : (t : Rat) ≤ 2 ^ 11 := by exact_mod_cast h.ticks_lt.le
  have hlow := (abs_le.1 h.near).1
  linarith

theorem ratio_pos : 0 < ratio := one_half_pos.trans h.half_lt_ratio

theorem ratio_lt_two : ratio < 2 := by
  have ht : (t : Rat) ≤ 2 ^ 11 := by exact_mod_cast h.ticks_lt.le
  have hhigh := (abs_le.1 h.near).2
  linarith

end TileRatio

namespace TileQuotient

variable {d t : Nat} {ratio tiles : Rat}

/-- Ticks come in multiples of what their number shares with a quarter note. -/
theorem gcd_dvd_ticks (d t : Nat) : Nat.gcd t 960 ∣ d * t % 960 :=
  (Nat.dvd_mod_iff (Nat.gcd_dvd_right t 960)).2 ((Nat.gcd_dvd_left t 960).mul_left d)

theorem rest_add_gcd_le (d t : Nat) : d * t % 960 + Nat.gcd t 960 ≤ 960 := by
  have hlt : d * t % 960 < 960 := Nat.mod_lt _ (by norm_num)
  have hle := Nat.le_of_dvd (by omega) (Nat.dvd_sub (Nat.gcd_dvd_right t 960) (gcd_dvd_ticks d t))
  omega

theorem ticks_eq (d t : Nat) :
    ((d * t : Nat) : Rat) / 960 = (d * t / 960 : Nat) + (d * t % 960 : Nat) / 960 := by
  rw [div_eq_iff (by norm_num), add_mul, div_mul_cancel₀ _ (by norm_num)]
  exact_mod_cast (Nat.div_add_mod' (d * t) 960).symm

variable (h : TileQuotient d t ratio tiles)
include h

theorem whole_lt : d * t / 960 + 1 < 2 ^ 32 := by
  have hd := h.limit
  have ht := h.ticks_lt
  have hproduct : d * t ≤ 0xFFFFFF * 2 ^ 11 := Nat.mul_le_mul hd ht.le
  omega

/-- Over so many tiles the ratio shifts less than the ticks keep away from a whole number. -/
theorem shift_le : |ratio - 1| * ((d * t / 960 : Nat) + 1) ≤ Nat.gcd t 960 / 960 - 1 / 1024 := by
  have hwhole : d * t / 960 + 1 ≤ 17478 * t := by
    have hpos := h.pos
    have hproduct := Nat.mul_le_mul_right t h.limit
    omega
  have hwhole : ((d * t / 960 : Nat) : Rat) + 1 ≤ 17478 * t := by exact_mod_cast hwhole
  have hmargin := h.margin
  calc |ratio - 1| * ((d * t / 960 : Nat) + 1) ≤ 334 / 10 ^ 13 * t * (17478 * t) :=
        mul_le_mul h.near hwhole (by positivity) (by positivity)
    _ ≤ 6 / 10 ^ 7 * (t : Rat) ^ 2 := by nlinarith [sq_nonneg (t : Rat)]
    _ ≤ Nat.gcd t 960 / 960 - 1 / 1024 := by linarith

/-- The quotient keeps away from the next whole number. -/
theorem tiles_le : tiles ≤ (d * t / 960 : Nat) + 1 - 1 / 1024 := by
  have hwhole : (0 : Rat) ≤ (d * t / 960 : Nat) := Nat.cast_nonneg _
  have hrest : ((d * t % 960 : Nat) : Rat) + Nat.gcd t 960 ≤ 960 := by
    exact_mod_cast rest_add_gcd_le d t
  have hshift := h.shift_le
  have hsize := mul_nonneg (abs_nonneg (ratio - 1)) (show (0 : Rat) ≤ 1 / 1024 by norm_num)
  have hdown := mul_le_mul_of_nonneg_left (neg_abs_le (ratio - 1))
    (show (0 : Rat) ≤ (d * t / 960 : Nat) + 1 - 1 / 1024 by linarith)
  refine le_of_mul_le_mul_right ?_ h.ratio_pos
  rw [h.eq, ticks_eq]
  linarith

/-- A ratio above one shifts the whole part less than the ticks keep away from a whole number. -/
theorem whole_mul_ratio_le :
    (d * t / 960 : Nat) * ratio ≤ (d * t / 960 : Nat) + (Nat.gcd t 960 / 960 - 1 / 1024) := by
  have hup := mul_le_mul_of_nonneg_left (le_abs_self (ratio - 1))
    (show (0 : Rat) ≤ (d * t / 960 : Nat) from Nat.cast_nonneg _)
  have hshift := h.shift_le
  have hsize := abs_nonneg (ratio - 1)
  linarith

/-- At or below the entry, and always between whole numbers, the quotient reaches the whole part. -/
theorem le_tiles (hcase : ratio ≤ 1 ∨ ¬960 ∣ d * t) : ((d * t / 960 : Nat) : Rat) ≤ tiles := by
  refine le_of_mul_le_mul_right ?_ h.ratio_pos
  rw [h.eq, ticks_eq]
  rcases hcase with hle | hrest
  · have hshrink := mul_le_of_le_one_right
      (show (0 : Rat) ≤ (d * t / 960 : Nat) from Nat.cast_nonneg _) hle
    have hfraction : (0 : Rat) ≤ (d * t % 960 : Nat) / 960 := by positivity
    linarith
  · have hpos : 0 < d * t % 960 := Nat.pos_of_ne_zero fun h => hrest (Nat.dvd_of_mod_eq_zero h)
    have hshare : (Nat.gcd t 960 : Rat) ≤ (d * t % 960 : Nat) := by
      exact_mod_cast Nat.le_of_dvd hpos (gcd_dvd_ticks d t)
    have hup := h.whole_mul_ratio_le
    linarith

/-- Above the entry a whole number of quarter notes is not reached, even after rounding. -/
theorem tiles_le_mul (hwhole : 960 ∣ d * t) (habove : 1 ≤ ratio * (1 - 2⁻¹ ^ 53)) :
    tiles ≤ (d * t / 960 : Nat) * (1 - 2⁻¹ ^ 53) := by
  refine le_of_mul_le_mul_right ?_ h.ratio_pos
  rw [h.eq, ticks_eq, Nat.mod_eq_zero_of_dvd hwhole, mul_right_comm, mul_assoc _ ratio]
  have := le_mul_of_one_le_right (show (0 : Rat) ≤ (d * t / 960 : Nat) from Nat.cast_nonneg _) habove
  simpa using this

theorem pred_le_tiles (hwhole : 960 ∣ d * t) (habove : 1 ≤ ratio) :
    ((d * t / 960 : Nat) : Rat) - 1 ≤ tiles := by
  have hshare : (Nat.gcd t 960 : Rat) ≤ (960 : Nat) := by
    exact_mod_cast Nat.gcd_le_right t (by norm_num)
  have hup := h.whole_mul_ratio_le
  refine le_of_mul_le_mul_right ?_ h.ratio_pos
  rw [h.eq, ticks_eq, Nat.mod_eq_zero_of_dvd hwhole, sub_mul]
  push_cast at hshare ⊢
  linarith

theorem tiles_nonneg : 0 ≤ tiles := by
  refine le_of_mul_le_mul_right ?_ h.ratio_pos
  rw [h.eq, zero_mul]
  positivity

/-! ### Rounded -/

variable {r : Rat} (hr : Nearest tiles r)
include hr

theorem floor_eq (hcase : ratio ≤ 1 ∨ ¬960 ∣ d * t) : ⌊r⌋ = (d * t / 960 : Nat) :=
  hr.floor_eq (h.whole_lt.trans (by norm_num)) (h.le_tiles hcase) h.tiles_le

theorem floor_eq_pred (hwhole : 960 ∣ d * t) (habove : 1 ≤ ratio * (1 - 2⁻¹ ^ 53)) :
    ⌊r⌋ = (d * t / 960 - 1 : Nat) := by
  have hlt := h.whole_lt
  rcases Nat.eq_zero_or_pos (d * t / 960) with hzero | hpos
  · have hle := h.tiles_le
    rw [hzero] at hle ⊢
    exact hr.floor_eq (by norm_num) (by simpa using h.tiles_nonneg) hle
  · have hone : 1 ≤ ratio := by
      have := h.ratio_pos
      linarith
    rw [hr.floor_eq_pred hpos (by omega) (h.pred_le_tiles hwhole hone)
      (h.tiles_le_mul hwhole habove)]
    omega

end TileQuotient

/-! ## Heights -/

section

variable {b : Float} {d t n : Nat} {p r : Rat}

theorem TileRatio.tileQuotient (h : TileRatio t (p * t / 30)) (hd : d ≤ 0xFFFFFF) :
    TileQuotient d t (p * t / 30) (d / (32 * p)) := by
  refine ⟨h, hd, ?_⟩
  have hp : p ≠ 0 := by
    rintro rfl
    simpa using h.ratio_pos
  push_cast
  field_simp
  ring

theorem TileRatio.pos_of_ratio (h : TileRatio t (p * t / 30)) : 0 < p ∧ p < 60 := by
  have ht : (1 : Rat) ≤ t := by exact_mod_cast h.pos
  have hlow := h.ratio_pos
  have hhigh := h.ratio_lt_two
  constructor
  · by_contra hneg
    nlinarith
  · by_contra hlarge
    nlinarith

/-- Only the division rounds: thirty-two times the base beats is exact. -/
theorem TileQuotient.value (h : TileQuotient d t (p * t / 30) (d / (32 * p))) (hb : value? b = some p) :
    ∃ r, value? (Float.ofNat d / (32 * b)) = some r ∧ Nearest (d / (32 * p)) r := by
  obtain ⟨hpos, hlt⟩ := h.pos_of_ratio
  have hunit : value? (32 * b) = some (32 * p) := by
    have hgrid : Grid (32 * p) := by
      have := (grid_of_value hb).mul_two_pow 5
      rwa [mul_comm, show (2 : Rat) ^ 5 = 32 by norm_num] at this
    have hround : RoundsTo (32 * p) (32 * b) :=
      roundsTo_mul (value?_ofNat (n := 32) (by norm_num)) hb
    obtain ⟨u, hu, hnearest⟩ := hround.value_of_le (n := 2048) (by norm_num)
      (abs_le.2 ⟨by push_cast; linarith, by push_cast; linarith⟩)
    rw [hu, hnearest.eq_self hgrid]
  have hd := h.limit
  have hround := roundsTo_div (value?_ofNat (n := d) (by omega)) hunit (by positivity)
  have hwhole : ((d * t / 960 : Nat) : Rat) + 1 < (2 ^ 32 : Nat) := by exact_mod_cast h.whole_lt
  have hle := h.tiles_le
  have hge := h.tiles_nonneg
  refine hround.value_of_le (n := 2 ^ 32) (by norm_num) ?_
  rw [abs_of_nonneg hge]
  linarith

theorem Row.heightOf_of_floor (hr : value? (Float.ofNat d / (32 * b)) = some r) (hn : ⌊r⌋ = n)
    (hlt : n ≤ 0xffffffff) : heightOf d b = max 1 n := by
  rw [heightOf, floor?_of_value hr, hn]
  show (if (1 : Int) ≤ n then min (n : Int).toNat 0xffffffff else 1) = max 1 n
  rw [Int.toNat_natCast]
  split_ifs <;> omega

end

open BaseBeats

theorem BaseBeats.ticksPerUnit?_of_mem_table {v : Float} {t : Nat} (h : (v, t) ∈ table) :
    ticksPerUnit? v = some t := by
  have hall : table.all (fun entry => ticksPerUnit? entry.1 == some entry.2) = true := by
    decide +kernel
  have hentry := List.all_eq_true.1 hall (v, t) h
  simpa using hentry

/-- An entry is the number that its ticks say, up to rounding. -/
theorem BaseBeats.tileRatio_of_mem_table {v : Float} {t : Nat} (h : (v, t) ∈ table) :
    ∃ q, value? v = some q ∧ q * t ≤ 30 ∧ TileRatio t (q * t / 30) := by
  obtain ⟨q, hq, hexact⟩ := exact_of_mem_table h
  have hclose : |q - q| < 10001 / 10 ^ 13 := by
    rw [sub_self, abs_zero]
    positivity
  exact ⟨q, hq, hexact.below, hexact.tileRatio hclose⟩

/-- **Up to the tick limit a row over an entry of the table is as high as its ticks say.** -/
theorem Row.heightOf_of_mem_table {v : Float} {t d : Nat} (h : (v, t) ∈ table) (hd : d ≤ 0xFFFFFF) :
    heightOf d v = max 1 (d * t / ticksPerQuarter) := by
  obtain ⟨q, hq, hbelow, hratio⟩ := tileRatio_of_mem_table h
  have hquotient := hratio.tileQuotient hd
  obtain ⟨r, hr, hnearest⟩ := hquotient.value hq
  have hlt : d * t / 960 ≤ 0xffffffff := by
    have := hquotient.whole_lt
    omega
  refine heightOf_of_floor hr (hquotient.floor_eq hnearest (Or.inl ?_)) hlt
  linarith

/-- **Up to the tick limit a row is as high as its ticks say, or one tile less where base beats above
their entry take a whole number of quarter notes.** -/
theorem Row.heightOf_eq {b : Float} {t : Nat} (hb : ticksPerUnit? b = some t) :
    ∃ v, (v, t) ∈ table ∧ ∀ d ≤ 0xFFFFFF,
      heightOf d b = max 1 (if v < b ∧ ticksPerQuarter ∣ d * t then d * t / ticksPerQuarter - 1
        else d * t / ticksPerQuarter) := by
  obtain ⟨v, hv, hclose⟩ := mem_of_ticksPerUnit? hb
  refine ⟨v, hv, fun d hd => ?_⟩
  obtain ⟨q, hq, hexact⟩ := exact_of_mem_table hv
  obtain ⟨p, hp, hnear⟩ := value_of_tolerance hq hclose
  have hquotient : TileQuotient d t (p * t / 30) (d / (32 * p)) :=
    (hexact.tileRatio hnear).tileQuotient hd
  obtain ⟨r, hr, hnearest⟩ := hquotient.value hp
  have hwhole : d * t / 960 ≤ 0xffffffff := by
    have := hquotient.whole_lt
    omega
  have hlt := lt_iff hq hp
  have ht : (0 : Rat) ≤ t := Nat.cast_nonneg t
  split_ifs with hcase
  · -- the successor of the entry is a rounding step too large already
    have habove := hexact.above p (grid_of_value hp) (hlt.1 hcase.1)
    refine heightOf_of_floor hr (hquotient.floor_eq_pred hnearest hcase.2 ?_)
      ((Nat.sub_le _ _).trans hwhole)
    linarith
  · refine heightOf_of_floor hr (hquotient.floor_eq hnearest ?_) hwhole
    by_cases habove : v < b
    · exact Or.inr fun hdvd => hcase ⟨habove, hdvd⟩
    · have hbelow := hexact.below
      have hle := mul_le_mul_of_nonneg_right (not_lt.1 fun h => habove (hlt.2 h)) ht
      exact Or.inl (by linarith)

theorem Row.heightOf_eq_above_entry :
    ticksPerUnit? 1.0000000001 = some 30 ∧ heightOf 64 1.0000000001 = 1 ∧
      heightOf 95 1.0000000001 = 2 := by
  have hb : ticksPerUnit? 1.0000000001 = some 30 := by decide +kernel
  obtain ⟨v, hv, hheight⟩ := Row.heightOf_eq hb
  obtain rfl := eq_of_mem_table hv (show (1.0, 30) ∈ table by simp [table])
  have habove : (1.0 : Float) < 1.0000000001 := by decide +kernel
  refine ⟨hb, ?_, ?_⟩
  · rw [hheight 64 (by norm_num), if_pos ⟨habove, by decide⟩]
    rfl
  · rw [hheight 95 (by norm_num), if_neg (fun h => absurd h.2 (by decide))]
    rfl

/-- The ticks alone do not give the height. -/
theorem Row.heightOf_ne_ticks :
    ¬∀ (b : Float) (t d : Nat), ticksPerUnit? b = some t → d ≤ 0xFFFFFF →
      heightOf d b = max 1 (d * t / ticksPerQuarter) := by
  intro h
  have heq := h 1.0000000001 30 64 (by decide +kernel) (by norm_num)
  have hone : heightOf 64 1.0000000001 = 1 := by decide +kernel
  rw [hone] at heq
  exact absurd heq (by decide)

end RhythmTiles
