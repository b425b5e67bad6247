import RhythmTiles.Proofs.Words.Arithmetic

/-!
# Shares on words

Totals are divided one after the other by one divisor. What is left over stays below the divisor, so with
a divisor up to 2^63 the remainders of two divisions fit in a word, and shares on words are the shares
(`divideAll_toNat`). Main theorem: `shares_round_down`.
-/

namespace RhythmTiles.Words

/-- The shares of successive divisions, with so much left over before them, and what is left over after
them. -/
def divideAll (policy : Overflow) (left : UInt64) :
    List (UInt64 × UInt64) → Except Stop (List UInt64 × UInt64)
  | [] => .ok ([], left)
  | (total, divisor) :: calls => do
    let share ← divide policy left total divisor
    let rest ← divideAll policy share.2 calls
    pure (share.1 :: rest.1, rest.2)

variable (policy : Overflow) {divisor : UInt64}

/-- **A share on words is the share**, and what is left over is left over. -/
theorem divide_toNat {left : UInt64} (hle : divisor.toNat ≤ 2 ^ 63) (h : left < divisor)
    (total : UInt64) :
    ∃ share rest, divide policy left total divisor = .ok (share, rest) ∧ rest < divisor ∧
      (Carry.mk left.toNat).divide total.toNat divisor.toNat = (share.toNat, ⟨rest.toNat⟩) := by
  have hleft : (Carry.mk left.toNat).remainder < divisor.toNat := UInt64.lt_iff_toNat_lt.1 h
  have hshare := (Carry.divide_le total.toNat hleft).trans_lt total.toNat_lt
  have hrest := Carry.divide_lt total.toNat hleft
  have hword := hrest.trans divisor.toNat_lt
  have hwords : divide policy (.ofNat left.toNat) (.ofNat total.toNat) (.ofNat divisor.toNat) = _ :=
    divide_ofNat total.toNat_lt hle hleft
  simp only [UInt64.ofNat_toNat] at hwords
  refine ⟨_, _, hwords, ?_, ?_⟩
  · rw [UInt64.lt_iff_toNat_lt, UInt64.toNat_ofNat_of_lt' hword]
    exact hrest
  · rw [UInt64.toNat_ofNat_of_lt' hshare, UInt64.toNat_ofNat_of_lt' hword]

theorem divideAll_toNat {left : UInt64} (hle : divisor.toNat ≤ 2 ^ 63) (h : left < divisor)
    (totals : List UInt64) :
    ∃ shares rest,
      divideAll policy left (totals.map fun total => (total, divisor)) = .ok (shares, rest) ∧
      (Carry.mk left.toNat).divideAll (totals.map fun total => (total.toNat, divisor.toNat)) =
        (shares.map UInt64.toNat, ⟨rest.toNat⟩) := by
  induction totals generalizing left with
  | nil => exact ⟨[], left, rfl, rfl⟩
  | cons total totals ih =>
    obtain ⟨share, next, hshare, hnext, hexact⟩ := divide_toNat policy hle h total
    obtain ⟨shares, rest, hshares, hexacts⟩ := ih hnext
    refine ⟨share :: shares, rest, ?_, ?_⟩
    · rw [List.map_cons, divideAll, hshare, ok_bind, hshares]
      rfl
    · rw [List.map_cons, Carry.divideAll, hexact]
      simp only [hexacts, List.map_cons]

/-- **The first shares are the first totals over the divisor, rounded down**, and the rest is left over. No
result exceeds a word, up to a divisor of half the range. Equal totals, as many as the divisor says, are
shared out in full, and their shares differ by at most one. -/
theorem shares_round_down (policy : Overflow) (divisor : UInt64) (hpos : 0 < divisor)
    (hle : divisor.toNat ≤ 2 ^ 63) (totals : List UInt64) :
    ∃ shares : List UInt64, shares.length = totals.length ∧
      (∀ k, ∃ left : UInt64,
        divideAll policy 0 ((totals.take k).map fun total => (total, divisor)) =
          .ok (shares.take k, left) ∧
        Carry.divideAll {} ((totals.take k).map fun total => (total.toNat, divisor.toNat)) =
          ((shares.take k).map UInt64.toNat, ⟨left.toNat⟩) ∧
        ((shares.take k).map UInt64.toNat).sum =
          ((totals.take k).map UInt64.toNat).sum / divisor.toNat ∧
        left.toNat = ((totals.take k).map UInt64.toNat).sum % divisor.toNat) ∧
      ∀ total, totals = List.replicate divisor.toNat total →
        (shares.map UInt64.toNat).sum = total.toNat ∧
          ∀ share ∈ shares, ∀ other ∈ shares, share.toNat ≤ other.toNat + 1 := by
  have hpos' : 0 < divisor.toNat := UInt64.lt_iff_toNat_lt.1 hpos
  obtain ⟨shares, rest, -, hexact⟩ := divideAll_toNat policy hle hpos totals
  have hshares : shares.map UInt64.toNat =
      (Carry.divideAll {} (totals.map fun total => (total.toNat, divisor.toNat))).1 :=
    (congrArg Prod.fst hexact).symm
  refine ⟨shares, ?_, fun k => ?_, fun total htotals => ?_⟩
  · have hlength := congrArg List.length hshares
    rwa [Carry.length_divideAll, List.length_map, List.length_map] at hlength
  · obtain ⟨first, left, hwords, hfirst⟩ := divideAll_toNat policy hle hpos (totals.take k)
    have hcalls : (totals.take k).map (fun total => (total.toNat, divisor.toNat)) =
        ((totals.take k).map UInt64.toNat).map fun total => (total, divisor.toNat) := by
      rw [List.map_map]
      rfl
    -- they are the first of all shares, as these are on natural numbers
    have hprefix : first = shares.take k := by
      apply List.map_injective_iff.2 fun _ _ => UInt64.toNat_inj.1
      rw [List.map_take, hshares, Carry.take_divideAll, ← List.map_take]
      exact (congrArg Prod.fst hfirst).symm
    obtain ⟨hsum, hleft⟩ := Carry.divideAll_floor ((totals.take k).map UInt64.toNat) hpos'
    rw [← hcalls] at hsum hleft
    have hexacts : Carry.divideAll {} ((totals.take k).map fun total =>
        (total.toNat, divisor.toNat)) = (first.map UInt64.toNat, ⟨left.toNat⟩) := hfirst
    rw [hexacts] at hsum hleft
    subst hprefix
    exact ⟨left, hwords, hexacts, hsum, hleft⟩
  · rw [htotals, List.map_replicate] at hshares
    refine ⟨?_, fun share hshare other hother => ?_⟩
    · rw [hshares]
      exact Carry.sum_shares hpos'
    · have hbounds : ∀ share ∈ shares, total.toNat / divisor.toNat ≤ share.toNat ∧
          share.toNat ≤ total.toNat / divisor.toNat + 1 := fun share hshare =>
        Carry.bounds_of_mem_divideAll hpos' (hshares ▸ List.mem_map_of_mem hshare)
      exact (hbounds share hshare).2.trans (Nat.succ_le_succ (hbounds other hother).1)

/-- With half the range as the divisor, what is left over and the next remainder fill a word but for two.
Ten ticks over three give three shares. -/
theorem shares_round_down_half_range :
    let divisor : UInt64 := 0x8000000000000000
    let totals : List UInt64 := [0x7fffffffffffffff, 0x7fffffffffffffff, 0xffffffffffffffff]
    (0 < divisor ∧ divisor.toNat ≤ 2 ^ 63 ∧
      ∃ shares left, divideAll .trap 0 (totals.map fun total => (total, divisor)) = .ok (shares, left) ∧
        (shares.map UInt64.toNat).sum = 3 ∧ left.toNat = 0x7ffffffffffffffd ∧
        ((shares.take 2).map UInt64.toNat).sum = 1) ∧
    ∃ shares, divideAll .wrap 0 [(10, 3), (10, 3), (10, 3)] = .ok (shares, 0) ∧
      (shares.map UInt64.toNat).sum = 10 ∧
      ∀ share ∈ shares, ∀ other ∈ shares, share.toNat ≤ other.toNat + 1 := by
  intro divisor totals
  have hpos : 0 < divisor := by decide
  have hle : divisor.toNat ≤ 2 ^ 63 := by decide
  refine ⟨⟨hpos, hle, ?_⟩, ?_⟩
  · obtain ⟨shares, hlength, hfirst, -⟩ := shares_round_down .trap divisor hpos hle totals
    obtain ⟨left, hwords, -, hsum, hleft⟩ := hfirst 3
    obtain ⟨-, -, -, htwo, -⟩ := hfirst 2
    have hall : shares.take 3 = shares := List.take_of_length_le hlength.le
    rw [hall] at hwords hsum
    exact ⟨shares, left, hwords, hsum.trans (by decide), hleft.trans (by decide),
      htwo.trans (by decide)⟩
  · obtain ⟨shares, hlength, hfirst, hequal⟩ :=
      shares_round_down .wrap 3 (by decide) (by decide) [10, 10, 10]
    obtain ⟨left, hwords, -, -, hleft⟩ := hfirst 3
    obtain ⟨hsum, hclose⟩ := hequal 10 rfl
    have hall : shares.take 3 = shares := List.take_of_length_le hlength.le
    have hzero : left = 0 := UInt64.toNat_inj.1 (hleft.trans (by decide))
    rw [hall, hzero] at hwords
    exact ⟨shares, hwords, hsum, hclose⟩

end RhythmTiles.Words
