import Mathlib
import RhythmTiles.Carry

/-!
# Exact shares add up

A division keeps `share * divisor + left over = left over before + total`, with less than a divisor
left over (`Carry.divide_exact`, `Carry.divide_lt`). So the shares of any row of totals are their sum
over the divisor, rounded down (`Carry.divideAll_floor`), and equal shares of one total lose nothing
(`Carry.sum_shares`): share `i` lies between the `i`-th and the next part of the total, both rounded
down (`Carry.shares_eq`).
-/

namespace RhythmTiles.Carry

variable {carry : Carry} {divisor : Nat}

/-- Nothing is lost between a share and what it leaves over. -/
theorem divide_exact (total : Nat) (h : carry.remainder < divisor) :
    divisor * (carry.divide total divisor).1 + (carry.divide total divisor).2.remainder =
      carry.remainder + total := by
  have hdiv := Nat.div_add_mod total divisor
  have hmod := Nat.mod_lt total (by omega : 0 < divisor)
  unfold divide
  rw [if_neg (by omega)]
  by_cases hfull : divisor ≤ carry.remainder + total % divisor
  · rw [if_pos hfull]
    simp only [Nat.mul_add]
    omega
  · rw [if_neg hfull]
    simp only
    omega

/-- Less than a divisor is left over. -/
theorem divide_lt (total : Nat) (h : carry.remainder < divisor) :
    (carry.divide total divisor).2.remainder < divisor := by
  have hmod := Nat.mod_lt total (by omega : 0 < divisor)
  unfold divide
  rw [if_neg (by omega)]
  split
  · simp only
    omega
  · simp only
    omega

/-- A share is no more than what is shared. -/
theorem divide_le (total : Nat) (h : carry.remainder < divisor) :
    (carry.divide total divisor).1 ≤ total := by
  have hexact := divide_exact total h
  by_contra hlt
  have hmul := Nat.mul_le_mul_left divisor (by omega : total + 1 ≤ (carry.divide total divisor).1)
  have htotal := Nat.le_mul_of_pos_left total (by omega : 0 < divisor)
  rw [Nat.mul_add] at hmul
  omega

/-- The shares of totals over one divisor, with what is left over, add up to the totals. -/
theorem divideAll_exact (carry : Carry) (totals : List Nat) (h : carry.remainder < divisor) :
    let result := carry.divideAll (totals.map fun total => (total, divisor))
    divisor * result.1.sum + result.2.remainder = carry.remainder + totals.sum ∧
      result.2.remainder < divisor := by
  induction totals generalizing carry with
  | nil => simpa [divideAll] using h
  | cons total totals ih =>
    obtain ⟨hsum, hlt⟩ := ih _ (divide_lt total h)
    have hfirst := divide_exact total h
    simp only [List.map_cons, divideAll, List.sum_cons, Nat.mul_add]
    exact ⟨by omega, hlt⟩

/-- **The shares are their totals over the divisor, rounded down**, and the rest is left over. -/
theorem divideAll_floor (totals : List Nat) (hpos : 0 < divisor) :
    let result := divideAll {} (totals.map fun total => (total, divisor))
    result.1.sum = totals.sum / divisor ∧ result.2.remainder = totals.sum % divisor := by
  intro result
  obtain ⟨hsum, hlt⟩ := divideAll_exact {} totals hpos
  have hexact : result.2.remainder + divisor * result.1.sum = totals.sum := by
    rw [Nat.add_comm, hsum, Nat.zero_add]
  obtain ⟨hdiv, hmod⟩ := (Nat.div_mod_unique hpos).2 ⟨hexact, hlt⟩
  exact ⟨hdiv.symm, hmod.symm⟩

/-- The first shares are those of the first totals. -/
theorem take_divideAll (carry : Carry) (calls : List (Nat × Nat)) (k : Nat) :
    (carry.divideAll calls).1.take k = (carry.divideAll (calls.take k)).1 := by
  induction calls generalizing carry k with
  | nil => simp [divideAll]
  | cons call calls ih =>
    cases k with
    | zero => rfl
    | succ k => exact congrArg ((carry.divide call.1 call.2).1 :: ·) (ih _ k)

/-- A share is the total over the divisor, rounded down, or one more. -/
theorem divide_bounds (carry : Carry) (total : Nat) (hpos : 0 < divisor) :
    total / divisor ≤ (carry.divide total divisor).1 ∧
      (carry.divide total divisor).1 ≤ total / divisor + 1 := by
  unfold divide
  rw [if_neg (by omega)]
  split
  · exact ⟨Nat.le_succ _, Nat.le_refl _⟩
  · exact ⟨Nat.le_refl _, Nat.le_succ _⟩

/-- Equal totals give shares that differ by at most one. -/
theorem bounds_of_mem_divideAll (hpos : 0 < divisor) {total count share : Nat}
    (h : share ∈ (carry.divideAll (List.replicate count (total, divisor))).1) :
    total / divisor ≤ share ∧ share ≤ total / divisor + 1 := by
  induction count generalizing carry with
  | zero => cases h
  | succ count ih =>
    rcases List.mem_cons.1 h with rfl | h
    · exact carry.divide_bounds total hpos
    · exact ih h

/-- Behind `i` equal totals the next share goes up to `i + 1` of them. -/
theorem divide_after {i total : Nat} (hpos : 0 < divisor)
    (h : carry.remainder = i * total % divisor) :
    i * total / divisor + (carry.divide total divisor).1 = (i + 1) * total / divisor ∧
      (carry.divide total divisor).2.remainder = (i + 1) * total % divisor := by
  have hlt : carry.remainder < divisor := h ▸ Nat.mod_lt _ hpos
  have hexact := divide_exact total hlt
  have hbefore := Nat.div_add_mod (i * total) divisor
  have hsum : (carry.divide total divisor).2.remainder +
      divisor * (i * total / divisor + (carry.divide total divisor).1) = (i + 1) * total := by
    rw [Nat.mul_add, Nat.succ_mul]
    omega
  obtain ⟨hdiv, hmod⟩ := (Nat.div_mod_unique hpos).2 ⟨hsum, divide_lt total hlt⟩
  exact ⟨hdiv.symm, hmod.symm⟩

theorem divideAll_after {i total : Nat} (hpos : 0 < divisor)
    (h : carry.remainder = i * total % divisor) (count : Nat) :
    (carry.divideAll (List.replicate count (total, divisor))).1 =
      (List.range' i count).map fun k => (k + 1) * total / divisor - k * total / divisor := by
  induction count generalizing i carry with
  | zero => rfl
  | succ count ih =>
    obtain ⟨hshare, hleft⟩ := divide_after hpos h
    have hfirst : (carry.divide total divisor).1 =
        (i + 1) * total / divisor - i * total / divisor := by omega
    rw [List.replicate_succ, List.range'_succ, List.map_cons, ← ih hleft, ← hfirst]
    rfl

theorem length_divideAll (carry : Carry) (calls : List (Nat × Nat)) :
    (carry.divideAll calls).1.length = calls.length := by
  induction calls generalizing carry with
  | nil => rfl
  | cons call calls ih => simp [divideAll, ih]

@[simp] theorem length_shares (total count : Nat) : (shares total count).length = count := by
  simp [shares, length_divideAll]

/-- Equal shares of a total add up to it. -/
theorem sum_shares {total count : Nat} (h : 0 < count) : (shares total count).sum = total := by
  obtain ⟨hsum, -⟩ := divideAll_floor (List.replicate count total) h
  rw [List.map_replicate, List.sum_replicate_nat, Nat.mul_div_cancel_left total h] at hsum
  exact hsum

/-- **Share `i` is what the first `i + 1` parts of the total have more than the first `i`**, both
rounded down. -/
theorem shares_eq (total count : Nat) :
    shares total count =
      (List.range' 0 count).map fun k => (k + 1) * total / count - k * total / count := by
  rcases Nat.eq_zero_or_pos count with rfl | hpos
  · rfl
  · exact divideAll_after hpos (by rw [Nat.zero_mul, Nat.zero_mod]) count

end RhythmTiles.Carry
