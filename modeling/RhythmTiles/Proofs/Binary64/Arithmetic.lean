import RhythmTiles.Proofs.Binary64.Value

/-!
# Arithmetic on doubles

A sum, a difference, a product and a quotient of doubles are nearest to the exact ones (`roundsTo_add`,
`roundsTo_sub`, `roundsTo_mul`, `roundsTo_div`), whole numbers below `2 ^ 53` are doubles themselves
(`value?_ofNat`), and doubles compare as their values do (`lt_iff`, `le_iff`).
-/

namespace RhythmTiles.Binary64

open Float.Model Float.Model.UnpackedFloat

variable {f g : UnpackedFloat} {a b : Rat}

/-- An unpacked double with a value is zero or finite. -/
theorem value_cases (h : unpackedValue? f = some a) :
    (∃ s, f = .zero s ∧ a = 0) ∨
      ∃ s m e hm, f = .finite s m e hm ∧ a = signOf s * (m * 2 ^ e) := by
  cases f with
  | infinity s => cases h
  | notANumber => cases h
  | zero s => exact Or.inl ⟨s, rfl, (Option.some.inj h).symm⟩
  | finite s m e hm => exact Or.inr ⟨s, m, e, hm, rfl, (Option.some.inj h).symm⟩

theorem rounded_self (hf : IsCanonical f) (h : unpackedValue? f = some a) : Rounded a f :=
  ⟨hf, a, h, nearest_self a⟩

/-! ## Sums and differences -/

theorem signOf_neg (s : Sign) : signOf (-s) = -signOf s := by
  cases s
  · exact (neg_neg 1).symm
  · rfl

theorem decreaseExponent_mul (s : Sign) (m : Nat) {e t : Int} (h : t ≤ e) :
    ((s.apply (decreaseExponent m e t).1 : Int) : Rat) * 2 ^ t = signOf s * (m * 2 ^ e) := by
  have hshift := shiftLeft_mul m (e - t).toNat e
  rw [show e - ((e - t).toNat : Int) = t by omega] at hshift
  rw [apply_eq, mul_assoc, Int.cast_natCast, ← hshift]
  rfl

theorem rounded_add (hf : IsCanonical f) (hg : IsCanonical g) (ha : unpackedValue? f = some a)
    (hb : unpackedValue? g = some b) : Rounded (a + b) (UnpackedFloat.add Format.binary64 f g) := by
  rcases value_cases ha with ⟨s, rfl, rfl⟩ | ⟨s, m, e, hm, rfl, rfl⟩ <;>
    rcases value_cases hb with ⟨t, rfl, rfl⟩ | ⟨t, n, d, hn, rfl, rfl⟩
  · rw [add_zero, UnpackedFloat.add]
    split_ifs <;> exact rounded_self trivial rfl
  · rw [zero_add]
    exact rounded_self hg rfl
  · rw [add_zero]
    exact rounded_self hf rfl
  · have hround := rounded_normalize
      (s.apply (decreaseExponent m e (min e d)).1 + t.apply (decreaseExponent n d (min e d)).1)
      (min e d) .positive
    rwa [Int.cast_add, add_mul, decreaseExponent_mul s m (min_le_left e d),
      decreaseExponent_mul t n (min_le_right e d)] at hround

theorem rounded_sub (hf : IsCanonical f) (hg : IsCanonical g) (ha : unpackedValue? f = some a)
    (hb : unpackedValue? g = some b) : Rounded (a - b) (UnpackedFloat.sub Format.binary64 f g) := by
  rcases value_cases ha with ⟨s, rfl, rfl⟩ | ⟨s, m, e, hm, rfl, rfl⟩ <;>
    rcases value_cases hb with ⟨t, rfl, rfl⟩ | ⟨t, n, d, hn, rfl, rfl⟩
  · rw [sub_zero, UnpackedFloat.sub]
    split_ifs <;> exact rounded_self trivial rfl
  · have hneg : unpackedValue? (.finite (-t) n d hn) = some (-(signOf t * (n * 2 ^ d))) := by
      rw [unpackedValue?, signOf_neg, neg_mul]
    rw [zero_sub]
    exact rounded_self (f := .finite (-t) n d hn) hg hneg
  · rw [sub_zero]
    exact rounded_self hf rfl
  · have hround := rounded_normalize
      (s.apply (decreaseExponent m e (min e d)).1 - t.apply (decreaseExponent n d (min e d)).1)
      (min e d) .positive
    rwa [Int.cast_sub, sub_mul, decreaseExponent_mul s m (min_le_left e d),
      decreaseExponent_mul t n (min_le_right e d)] at hround

theorem unpackedValue?_sub_eq_none (ha : unpackedValue? f = some a) (hb : unpackedValue? g = none) :
    unpackedValue? (UnpackedFloat.sub Format.binary64 f g) = none := by
  rcases value_cases ha with ⟨s, rfl, rfl⟩ | ⟨s, m, e, hm, rfl, rfl⟩ <;> cases g <;>
    first | rfl | cases hb

theorem unpackedValue?_pack_eq_none (h : unpackedValue? f = none) :
    unpackedValue? (Float.Model.pack f).unpack = none := by
  cases f with
  | infinity s =>
    rw [unpack_pack (f := .infinity s) trivial trivial]
    rfl
  | notANumber =>
    rw [unpack_pack (f := .notANumber) trivial trivial]
    rfl
  | zero s => cases h
  | finite s m e hm => cases h

/-! ## Products -/

theorem rounded_mul (hf : IsCanonical f) (hg : IsCanonical g) (ha : unpackedValue? f = some a)
    (hb : unpackedValue? g = some b) : Rounded (a * b) (UnpackedFloat.mul Format.binary64 f g) := by
  rcases value_cases ha with ⟨s, rfl, rfl⟩ | ⟨s, m, e, hm, rfl, rfl⟩ <;>
    rcases value_cases hb with ⟨t, rfl, rfl⟩ | ⟨t, n, d, hn, rfl, rfl⟩
  · rw [mul_zero]
    exact rounded_self trivial rfl
  · rw [zero_mul]
    exact rounded_self trivial rfl
  · rw [mul_zero]
    exact rounded_self trivial rfl
  · have hvalue : signOf s * (m * 2 ^ e) * (signOf t * (n * 2 ^ d)) =
        signOf (s * t) * (((m * n : Nat) : Rat) * 2 ^ (e + d)) := by
      rw [signOf_mul, zpow_add₀ two_ne_zero, Nat.cast_mul]
      ring
    rw [hvalue]
    apply rounded_roundWithAccuracy
    · rw [mul_div_cancel_right₀ _ (zpow_ne_zero _ two_ne_zero)]
      exact represents_exact _
    · -- one factor has all bits, or both have the least exponent
      rw [Nat.le_log2 (Nat.mul_pos hm hn).ne']
      rcases hf.full with hfull | hleast
      · exact Or.inl (hfull.trans (Nat.le_mul_of_pos_right m hn))
      · rcases hg.full with hfull | hleast'
        · exact Or.inl (hfull.trans (Nat.le_mul_of_pos_left n hm))
        · exact Or.inr (by omega)

/-! ## Quotients -/

theorem represents_inexact (q : Nat) {y : Rat} (hpos : 0 < y) (hlt : y < 1) :
    Represents (.ofMantissaAndAccuracy q (.inexact (compare y (1 / 2)))) (q + y) := by
  rcases lt_trichotomy y (1 / 2) with h | h | h
  · rw [compare_lt_iff_lt.2 h]
    show (q : Rat) < q + y ∧ q + y < q + 1 / 2
    constructor <;> linarith
  · rw [compare_eq_iff_eq.2 h, h]
    rfl
  · rw [compare_gt_iff_gt.2 h]
    show (q : Rat) + 1 / 2 < q + y ∧ q + y < q + 1
    constructor <;> linarith

theorem compare_map {α β : Type} [LinearOrder α] [LinearOrder β] {f : α → β} (hf : StrictMono f)
    (x y : α) : compare (f x) (f y) = compare x y := by
  rw [← cmp_eq_compare, ← cmp_eq_compare, hf.cmp_map_eq]

theorem compare_half (r : Nat) {d : Nat} (hd : 0 < d) :
    compare (2 * r) d = compare ((r : Rat) / d) (1 / 2) := by
  have hd : (0 : Rat) < d := by exact_mod_cast hd
  have hscale : (r : Rat) / d * (2 * d) = (2 * r : Nat) := by
    push_cast
    field_simp
  have hhalf : (1 / 2 : Rat) * (2 * d) = d := by ring
  have hmono : StrictMono fun x : Rat => x * (2 * d) := strictMono_mul_right_of_pos (by positivity)
  have hcast : StrictMono fun n : Nat => (n : Rat) := Nat.strictMono_cast
  calc compare (2 * r) d = compare ((2 * r : Nat) : Rat) d := (compare_map hcast _ _).symm
    _ = compare ((r : Rat) / d * (2 * d)) (1 / 2 * (2 * d)) := by rw [hscale, hhalf]
    _ = compare ((r : Rat) / d) (1 / 2) := compare_map hmono _ _

theorem represents_div (m : Nat) {d : Nat} (hd : 0 < d) :
    Represents (.ofMantissaAndAccuracy (m / d) (accuracyOfFraction (m % d) d)) (m / d) := by
  have hd' : (0 : Rat) < d := by exact_mod_cast hd
  have hquotient : (m : Rat) / d = (m / d : Nat) + (m % d : Nat) / d := by
    rw [div_eq_iff hd'.ne', add_mul, div_mul_cancel₀ _ hd'.ne']
    exact_mod_cast (Nat.div_add_mod' m d).symm
  rw [hquotient]
  unfold accuracyOfFraction
  split_ifs with hzero
  · rw [hzero, Nat.cast_zero, zero_div, add_zero]
    exact represents_exact _
  · rw [compare_half _ hd]
    apply represents_inexact
    · have : (0 : Rat) < (m % d : Nat) := by exact_mod_cast Nat.pos_of_ne_zero hzero
      positivity
    · rw [div_lt_one hd']
      exact_mod_cast Nat.mod_lt m hd

/-- The quotient of shifted mantissas has enough bits. -/
theorem full_quotient {m n k : Nat} (hm : m ≠ 0) (hn : 0 < n) (hk : n.log2 + 53 ≤ m.log2 + k) :
    2 ^ 52 ≤ (m <<< k) / n := by
  rw [Nat.le_div_iff_mul_le hn]
  calc 2 ^ 52 * n ≤ 2 ^ 52 * 2 ^ (n.log2 + 1) := Nat.mul_le_mul_left _ Nat.lt_log2_self.le
    _ = 2 ^ (n.log2 + 53) := by rw [← pow_add, add_comm]
    _ ≤ 2 ^ (m.log2 + k) := Nat.pow_le_pow_right two_pos hk
    _ = 2 ^ m.log2 * 2 ^ k := pow_add _ _ _
    _ ≤ m * 2 ^ k := Nat.mul_le_mul_right _ (Nat.log2_self_le hm)
    _ = m <<< k := (Nat.shiftLeft_eq m k).symm

theorem signOf_div (s t : Sign) : signOf (s / t) = signOf s / signOf t := by
  have hsame : s / t = s * t := by cases s <;> cases t <;> rfl
  rw [hsame, signOf_mul]
  cases t <;> simp [signOf, div_neg]

theorem rounded_div (ha : unpackedValue? f = some a) (hb : unpackedValue? g = some b)
    (hne : b ≠ 0) : Rounded (a / b) (UnpackedFloat.div Format.binary64 f g) := by
  rcases value_cases hb with ⟨t, rfl, rfl⟩ | ⟨t, n, d, hn, rfl, rfl⟩
  · exact absurd rfl hne
  rcases value_cases ha with ⟨s, rfl, rfl⟩ | ⟨s, m, e, hm, rfl, rfl⟩
  · rw [zero_div]
    exact rounded_self trivial rfl
  · obtain ⟨t', ht'⟩ : ∃ t', min (e - d)
      (Format.binary64.targetExponent (totalExponent m e - totalExponent n d)) = t' := ⟨_, rfl⟩
    obtain ⟨k, hk⟩ : ∃ k : Nat, (e - d - t').toNat = k := ⟨_, rfl⟩
    have hdiv : UnpackedFloat.div Format.binary64 (.finite s m e hm) (.finite t n d hn) =
        roundWithAccuracy Format.binary64 (s / t) ((m <<< k) / n) t'
          (accuracyOfFraction ((m <<< k) % n) n) := by
      rw [← hk, ← ht']
      rfl
    -- the mantissa is shifted so far that the quotient has all its bits
    have hexponent : t' = e - d - k := by omega
    have hvalue : signOf s * (m * 2 ^ e) / (signOf t * (n * 2 ^ d)) =
        signOf (s / t) * (((m <<< k : Nat) : Rat) / n * 2 ^ t') := by
      have hshift := shiftLeft_mul m k (e - d)
      rw [← hexponent, zpow_sub₀ two_ne_zero e d] at hshift
      have hmagnitude : (m : Rat) * 2 ^ e / (n * 2 ^ d) = ((m <<< k : Nat) : Rat) / n * 2 ^ t' := by
        rw [div_mul_eq_mul_div, hshift]
        ring
      rw [mul_div_mul_comm, hmagnitude, signOf_div]
    rw [hdiv, hvalue]
    apply rounded_roundWithAccuracy
    · rw [mul_div_cancel_right₀ _ (zpow_ne_zero _ two_ne_zero)]
      exact represents_div _ hn
    · rcases le_or_gt t' (-1074) with hleast | hlarge
      · exact Or.inr hleast
      · left
        rw [targetExponent_eq, totalExponent, totalExponent] at ht'
        have hfull : 2 ^ 52 ≤ (m <<< k) / n := full_quotient hm.ne' hn (by omega)
        exact (Nat.le_log2 (by omega)).2 hfull

/-! ## Doubles -/

section

variable {x y : Float}

theorem roundsTo_add (hx : value? x = some a) (hy : value? y = some b) : RoundsTo (a + b) (x + y) := by
  rw [value?_eq] at hx hy
  exact (rounded_add (isCanonical_unpack _).1 (isCanonical_unpack _).1 hx hy).roundsTo

theorem roundsTo_sub (hx : value? x = some a) (hy : value? y = some b) : RoundsTo (a - b) (x - y) := by
  rw [value?_eq] at hx hy
  exact (rounded_sub (isCanonical_unpack _).1 (isCanonical_unpack _).1 hx hy).roundsTo

theorem roundsTo_mul (hx : value? x = some a) (hy : value? y = some b) : RoundsTo (a * b) (x * y) := by
  rw [value?_eq] at hx hy
  exact (rounded_mul (isCanonical_unpack _).1 (isCanonical_unpack _).1 hx hy).roundsTo

theorem roundsTo_div (hx : value? x = some a) (hy : value? y = some b) (hne : b ≠ 0) :
    RoundsTo (a / b) (x / y) := by
  rw [value?_eq] at hx hy
  exact (rounded_div hx hy hne).roundsTo

/-- A number less something that is none is none. -/
theorem value?_sub_eq_none (hx : value? x = some a) (hy : value? y = none) :
    value? (x - y) = none := by
  rw [value?_eq] at hx hy ⊢
  exact unpackedValue?_pack_eq_none (unpackedValue?_sub_eq_none hx hy)

/-- A whole number of 53 bits is a double. -/
theorem value?_ofNat {n : Nat} (hn : n < 2 ^ 53) : value? (Float.ofNat n) = some (n : Rat) := by
  have hword : value? n.toUInt64.toFloat = some (n : Rat) := by
    have hround : RoundsTo ((n.toUInt64.toNat : Int) * 2 ^ (0 : Int)) n.toUInt64.toFloat :=
      (rounded_normalize n.toUInt64.toNat 0 .positive).roundsTo
    have hsame : n.toUInt64.toNat = n := Nat.mod_eq_of_lt (by omega)
    rw [hsame, zpow_zero, mul_one, Int.cast_natCast] at hround
    exact hround.value_natCast hn
  have hone : value? (Float.ofBits 0x3FF0000000000000) = some 1 := by
    have hparts : parts? (Float.ofBits 0x3FF0000000000000) = some ⟨false, 2 ^ 52, -52⟩ := by
      decide +kernel
    rw [value?, hparts, Option.map_some, Parts.value, Parts.signed]
    norm_num
  have hmul := roundsTo_mul hword hone
  rw [mul_one] at hmul
  have hfast : Float.ofNat n = n.toUInt64.toFloat * Float.ofBits 0x3FF0000000000000 := by
    show Float.ofScientific n false 0 = _
    unfold Float.ofScientific
    rw [dif_pos ⟨hn, Nat.zero_le _⟩]
    rfl
  rw [hfast]
  exact hmul.value_natCast hn

end

/-! ## Comparisons -/

/-- A lower exponent makes a lower number, whatever the mantissas. -/
theorem Canonical.lt_of_lt {m n : Nat} {e d : Int} (hm : Canonical m e) (hn : Canonical n d)
    (hlt : e < d) : (m : Rat) * 2 ^ e < n * 2 ^ d := by
  have hfull : ((2 ^ 52 : Nat) : Rat) ≤ n := by
    exact_mod_cast hn.full.resolve_right (by have := hm.ge; omega)
  have hbits : (m : Rat) < ((2 ^ 53 : Nat) : Rat) := by exact_mod_cast hm.lt
  have hunit : (0 : Rat) < 2 ^ e := zpow_pos two_pos e
  have hcoarse : (2 : Rat) ^ e * 2 ≤ 2 ^ d := by
    rw [← zpow_add_one₀ two_ne_zero]
    exact zpow_le_zpow_right₀ one_le_two hlt
  calc (m : Rat) * 2 ^ e < ((2 ^ 53 : Nat) : Rat) * 2 ^ e := mul_lt_mul_of_pos_right hbits hunit
    _ = ((2 ^ 52 : Nat) : Rat) * (2 ^ e * 2) := by push_cast; ring
    _ ≤ n * 2 ^ d := mul_le_mul hfull hcoarse (by positivity) (Nat.cast_nonneg n)

theorem Canonical.compare_eq {m n : Nat} {e d : Int} (hm : Canonical m e) (hn : Canonical n d) :
    (compare e d).then (compare m n) = compare ((m : Rat) * 2 ^ e) (n * 2 ^ d) := by
  rcases lt_trichotomy e d with hlt | rfl | hgt
  · rw [compare_lt_iff_lt.2 hlt, compare_lt_iff_lt.2 (hm.lt_of_lt hn hlt)]
    rfl
  · have hmono : StrictMono fun k : Nat => (k : Rat) * 2 ^ e :=
      (strictMono_mul_right_of_pos (zpow_pos two_pos e)).comp Nat.strictMono_cast
    rw [compare_eq_iff_eq.2 rfl]
    exact (compare_map hmono m n).symm
  · rw [compare_gt_iff_gt.2 hgt, compare_gt_iff_gt.2 (hn.lt_of_lt hm hgt)]
    rfl

theorem compare_neg (p q : Rat) : compare (-p) (-q) = (compare p q).swap := by
  rcases lt_trichotomy p q with h | rfl | h
  · rw [compare_lt_iff_lt.2 h, compare_gt_iff_gt.2 (neg_lt_neg h)]
    rfl
  · rw [compare_eq_iff_eq.2 rfl, compare_eq_iff_eq.2 rfl]
    rfl
  · rw [compare_gt_iff_gt.2 h, compare_lt_iff_lt.2 (neg_lt_neg h)]
    rfl

/-- Unpacked doubles compare as their values do. -/
theorem compare_unpacked (hf : IsCanonical f) (hg : IsCanonical g) (ha : unpackedValue? f = some a)
    (hb : unpackedValue? g = some b) : UnpackedFloat.compare f g = some (compare a b) := by
  have hpos : ∀ {m : Nat}, 0 < m → ∀ e : Int, (0 : Rat) < m * 2 ^ e := by
    intro m hm e
    have : (0 : Rat) < m := by exact_mod_cast hm
    positivity
  rcases value_cases ha with ⟨s, rfl, rfl⟩ | ⟨s, m, e, hm, rfl, rfl⟩ <;>
    rcases value_cases hb with ⟨t, rfl, rfl⟩ | ⟨t, n, d, hn, rfl, rfl⟩
  · rw [compare_eq_iff_eq.2 rfl]
    rfl
  · cases t with
    | negative => rw [compare_gt_iff_gt.2 (by simpa [signOf] using hpos hn d)]; rfl
    | positive => rw [compare_lt_iff_lt.2 (by simpa [signOf] using hpos hn d)]; rfl
  · cases s with
    | negative => rw [compare_lt_iff_lt.2 (by simpa [signOf] using hpos hm e)]; rfl
    | positive => rw [compare_gt_iff_gt.2 (by simpa [signOf] using hpos hm e)]; rfl
  · have hsame := Canonical.compare_eq hf hg
    have hm := hpos hm e
    have hn := hpos hn d
    cases s <;> cases t
    · rw [signOf, neg_one_mul, neg_one_mul, compare_neg, ← hsame]
      rfl
    · rw [compare_lt_iff_lt.2 (by simp only [signOf]; linarith)]
      rfl
    · rw [compare_gt_iff_gt.2 (by simp only [signOf]; linarith)]
      rfl
    · rw [signOf, one_mul, one_mul, ← hsame]
      rfl

section

variable {x y : Float}

theorem lt_iff_compare : x < y ↔ UnpackedFloat.compare x.toModel.unpack y.toModel.unpack = some .lt := by
  show decide (x.toModel < y.toModel) = true ↔ _
  rw [decide_eq_true_iff]
  exact beq_iff_eq

/-- **Doubles compare as their values do.** -/
theorem lt_iff (hx : value? x = some a) (hy : value? y = some b) : x < y ↔ a < b := by
  rw [value?_eq] at hx hy
  rw [lt_iff_compare, compare_unpacked (isCanonical_unpack _).1 (isCanonical_unpack _).1 hx hy,
    Option.some.injEq, compare_lt_iff_lt]

theorem le_iff_unpacked :
    x ≤ y ↔ UnpackedFloat.le x.toModel.unpack y.toModel.unpack = true := by
  show decide (x.toModel ≤ y.toModel) = true ↔ _
  rw [decide_eq_true_iff]
  rfl

theorem le_iff (hx : value? x = some a) (hy : value? y = some b) : x ≤ y ↔ a ≤ b := by
  rw [value?_eq] at hx hy
  have hcompare := compare_unpacked (isCanonical_unpack _).1 (isCanonical_unpack _).1 hx hy
  rw [le_iff_unpacked, UnpackedFloat.le, hcompare, Option.any_some, Ordering.isLE_iff_ne_gt, ← not_lt]
  exact not_congr compare_gt_iff_gt

theorem isFinite_of_value (hx : value? x = some a) : x.isFinite = true := by
  rw [value?_eq] at hx
  show UnpackedFloat.isFinite x.toModel.unpack = true
  rcases value_cases hx with ⟨s, hzero, -⟩ | ⟨s, m, e, hm, hfinite, -⟩
  · rw [hzero]
    rfl
  · rw [hfinite]
    rfl

theorem value_of_isFinite (h : x.isFinite = true) : ∃ a, value? x = some a := by
  have hfinite : UnpackedFloat.isFinite x.toModel.unpack = true := h
  rw [value?_eq]
  cases hx : x.toModel.unpack with
  | infinity s =>
    rw [hx] at hfinite
    cases hfinite
  | notANumber =>
    rw [hx] at hfinite
    cases hfinite
  | zero s => exact ⟨_, rfl⟩
  | finite s m e hm => exact ⟨_, rfl⟩

/-- An infinity above all numbers is not at most a number. -/
theorem not_le_of_infinity (hx : x.toModel.unpack = .infinity .positive) (hy : value? y = some b) :
    ¬x ≤ y := by
  rw [value?_eq] at hy
  rw [le_iff_unpacked, hx]
  intro hle
  rcases value_cases hy with ⟨s, hy, -⟩ | ⟨s, m, e, hm, hy, -⟩
  · rw [hy] at hle
    cases hle
  · rw [hy] at hle
    cases hle

/-- A nonnegative number whose double is at most a number has not become too large. -/
theorem Rounded.value_of_le {f : UnpackedFloat} (h : Rounded a f) (ha : 0 ≤ a) (hy : value? y = some b)
    (hle : Float.ofModel (Float.Model.pack f) ≤ y) :
    ∃ r, value? (.ofModel (Float.Model.pack f)) = some r ∧ Nearest a r := by
  obtain ⟨hcanonical, r, hr, hnearest⟩ := h
  by_cases hrange : InRange f
  · refine ⟨r, ?_, hnearest⟩
    rw [value?_eq, unpack_pack hcanonical hrange]
    exact hr
  · cases f with
    | infinity s => exact absurd trivial hrange
    | notANumber => exact absurd trivial hrange
    | zero s => exact absurd trivial hrange
    | finite s m e hpos =>
      have hlarge : 971 < e := not_le.1 hrange
      refine absurd hle (not_le_of_infinity ?_ hy)
      rw [unpack_pack_large hlarge]
      cases s with
      | positive => rfl
      | negative =>
        cases hr
        have hnonneg := hnearest.ge (grid_natCast (n := 0) (by norm_num)) (by simpa using ha)
        have hm : (0 : Rat) < m := by exact_mod_cast hpos
        have hmagnitude : (0 : Rat) < m * 2 ^ e := by positivity
        simp only [signOf, Nat.cast_zero] at hnonneg
        linarith

/-- A quotient that is at most a number is a number. -/
theorem value_of_div_le (hx : value? x = some a) (hy : value? y = some b) (ha : 0 ≤ a) (hb : 0 < b)
    (hz : value? z = some c) (hle : x / y ≤ z) :
    ∃ r, value? (x / y) = some r ∧ Nearest (a / b) r := by
  rw [value?_eq] at hx hy
  exact (rounded_div hx hy hb.ne').value_of_le (div_nonneg ha hb.le) hz hle

theorem unpack_abs (x : Float) : x.abs.toModel.unpack = x.toModel.unpack.abs := by
  obtain ⟨hcanonical, hrange⟩ := isCanonical_unpack x.toModel
  apply unpack_pack <;> cases hx : x.toModel.unpack <;>
    simp_all [UnpackedFloat.abs, IsCanonical, InRange]

theorem value?_abs (hx : value? x = some a) : value? x.abs = some |a| := by
  rw [value?_eq] at hx ⊢
  rw [unpack_abs]
  rcases value_cases hx with ⟨s, hf, rfl⟩ | ⟨s, m, e, hm, hf, rfl⟩
  · rw [hf, abs_zero]
    rfl
  · have hpos : (0 : Rat) ≤ m * 2 ^ e := by positivity
    rw [hf]
    cases s <;> simp [UnpackedFloat.abs, unpackedValue?, signOf, abs_of_nonneg hpos]

/-- What is less than a number in size is a number. -/
theorem value_of_abs_lt (hy : value? y = some b) (h : x.abs < y) :
    ∃ a, value? x = some a ∧ |a| < b := by
  cases hx : value? x with
  | some a => exact ⟨a, rfl, (lt_iff (value?_abs hx) hy).1 h⟩
  | none =>
    rw [lt_iff_compare, unpack_abs] at h
    rw [value?_eq] at hx hy
    cases hf : x.toModel.unpack with
    | infinity s =>
      rw [hf] at h
      rcases value_cases hy with ⟨t, hg, -⟩ | ⟨t, n, d, hn, hg, -⟩ <;> rw [hg] at h <;> cases h
    | notANumber =>
      rw [hf] at h
      cases h
    | zero s =>
      rw [hf] at hx
      cases hx
    | finite s m e hm =>
      rw [hf] at hx
      cases hx

end

end RhythmTiles.Binary64
