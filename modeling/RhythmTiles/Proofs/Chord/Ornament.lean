import RhythmTiles.Proofs.Chord.Length

/-!
# The turns of an ornament

An ornament plays its two notes in turn. Its steps are shares of a total over 720 that a `Carry` hands
out, but no step is shorter than a tick (`ornamentStep`), so the first `n` steps reach at least `n`
ticks (`le_reach`). The ornament ends with the first step that reaches its length, and the last note
gets what is left of the length then. Main theorem: `ornament_in_turns`.
-/

namespace RhythmTiles.Chord

/-! ## Steps -/

/-- How long step `i` of an ornament is, if it is not cut. -/
def ornamentStep (ornamentTotal i : Nat) : Nat :=
  max 1 ((i + 1) * ornamentTotal / ornamentDivisor - i * ornamentTotal / ornamentDivisor)

/-- The ticks of the first `n` steps. -/
def reach (ornamentTotal n : Nat) : Nat := ((List.range n).map (ornamentStep ornamentTotal)).sum

/-- The note of turn `i`. -/
def turn (first second : Pitch) (i : Nat) : Pitch := if i % 2 = 0 then first else second

/-- What is left of a length for step `i`, up to the whole step. -/
def turnTicks (length ornamentTotal i : Nat) : Nat :=
  min (ornamentStep ornamentTotal i) (length - reach ornamentTotal i)

/-- One turn of an ornament over a length. -/
def playTurn (first second : Pitch) (length ornamentTotal i : Nat) : Track :=
  [.on (turn first second i), .delay (turnTicks length ornamentTotal i), .off (turn first second i)]

variable {first second : Pitch} {length ornamentTotal : Nat}

theorem reach_succ (ornamentTotal n : Nat) :
    reach ornamentTotal (n + 1) = reach ornamentTotal n + ornamentStep ornamentTotal n := by
  simp [reach, List.range_succ]

/-- Every step takes time. -/
theorem le_reach (ornamentTotal n : Nat) : n ≤ reach ornamentTotal n := by
  induction n with
  | zero => exact Nat.zero_le _
  | succ n ih =>
    have hstep : 1 ≤ ornamentStep ornamentTotal n := Nat.le_max_left _ _
    rw [reach_succ]
    omega

/-- Behind `i` divisions the next step is step `i`. -/
theorem max_divide {carry : Carry} {i : Nat}
    (h : carry.remainder = i * ornamentTotal % ornamentDivisor) :
    max 1 (carry.divide ornamentTotal ornamentDivisor).1 = ornamentStep ornamentTotal i ∧
      (carry.divide ornamentTotal ornamentDivisor).2.remainder =
        (i + 1) * ornamentTotal % ornamentDivisor := by
  obtain ⟨hshare, hleft⟩ := Carry.divide_after (by decide : 0 < ornamentDivisor) h
  rw [ornamentStep, ← hshare, Nat.add_sub_cancel_left]
  exact ⟨rfl, hleft⟩

theorem turn_succ (first second : Pitch) (i : Nat) :
    (if turn first second i = first then second else first) = turn first second (i + 1) := by
  unfold turn
  split_ifs <;> first | rfl | omega | simp_all

/-! ## Turns -/

/-- What is played from turn `i` on, if the steps reach the length in turn `i + more` and not before. -/
theorem alternate_eq_turns {carry : Carry} {i more remaining : Nat}
    (hcarry : carry.remainder = i * ornamentTotal % ornamentDivisor)
    (hremaining : reach ornamentTotal i + remaining = length)
    (hbefore : ∀ k, i < k → k ≤ i + more → reach ornamentTotal k < length)
    (hend : length ≤ reach ornamentTotal (i + more + 1)) :
    alternate first second ornamentTotal carry (turn first second i) remaining =
      (List.range' i (more + 1)).flatMap (playTurn first second length ornamentTotal) := by
  induction more generalizing carry i remaining with
  | zero =>
    obtain ⟨hstep, -⟩ := max_divide hcarry
    rw [Nat.add_zero, reach_succ] at hend
    -- the last turn takes what is left of the length
    have hlast : turnTicks length ornamentTotal i = remaining := by
      unfold turnTicks
      omega
    rw [alternate, hstep, if_pos (by omega), List.range'_one, List.flatMap_singleton, playTurn, hlast]
  | succ more ih =>
    obtain ⟨hstep, hleft⟩ := max_divide hcarry
    have hshort := hbefore (i + 1) (by omega) (by omega)
    rw [reach_succ] at hshort
    have hwhole : turnTicks length ornamentTotal i = ornamentStep ornamentTotal i := by
      unfold turnTicks
      omega
    have hleftOver :
        reach ornamentTotal (i + 1) + (remaining - ornamentStep ornamentTotal i) = length := by
      rw [reach_succ]
      omega
    have hnext := ih hleft hleftOver (fun k hk hle => hbefore k (by omega) (by omega))
      (by rwa [Nat.add_right_comm i 1 more])
    rw [List.range'_succ, List.flatMap_cons, playTurn, hwhole, ← hnext, alternate, hstep,
      if_neg (by omega), turn_succ]
    rfl

/-- The delays of the turns fill the length as far as the steps reach. -/
theorem sum_turnTicks (length ornamentTotal n : Nat) :
    ((List.range n).map (turnTicks length ornamentTotal)).sum =
      min (reach ornamentTotal n) length := by
  induction n with
  | zero => simp [reach]
  | succ n ih =>
    rw [List.range_succ, List.map_append, List.sum_append, ih, reach_succ]
    simp only [List.map_singleton, List.sum_singleton, turnTicks]
    omega

/-- Some number of steps reaches the length. -/
theorem exists_isLeast_reach (length ornamentTotal : Nat) :
    ∃ n, IsLeast {n | 1 ≤ n ∧ length ≤ reach ornamentTotal n} n := by
  have hreaches : ∃ n, 1 ≤ n ∧ length ≤ reach ornamentTotal n :=
    ⟨max 1 length, Nat.le_max_left _ _, (Nat.le_max_right _ _).trans (le_reach _ _)⟩
  exact ⟨Nat.find hreaches, Nat.find_spec hreaches, fun n hn => Nat.find_min' hreaches hn⟩

/-- **An ornament plays its notes in turn until its steps reach its length.** All turns but the last
last a whole step, and together they last exactly the length. -/
theorem ornament_in_turns (hfirst : Pitch.firstReal ≤ first) (hsecond : Pitch.firstReal ≤ second)
    (length ornamentTotal position : Nat) :
    ∃ n, ∃ delays : Nat → Nat,
      IsLeast {n | 1 ≤ n ∧ length ≤ reach ornamentTotal n} n ∧
      ornament [.pitch first, .glyph .ornament, .pitch second] length ornamentTotal position =
        .ok ((List.range n).flatMap fun i =>
          [.on (turn first second i), .delay (delays i), .off (turn first second i)]) ∧
      (∀ i, i + 1 < n → delays i = ornamentStep ornamentTotal i) ∧
      ((List.range n).map delays).sum = length ∧
      (0 < length → 0 < delays (n - 1) ∧ delays (n - 1) ≤ ornamentStep ornamentTotal (n - 1)) := by
  obtain ⟨n, hleast⟩ := exists_isLeast_reach length ornamentTotal
  obtain ⟨hpos, hreach⟩ := hleast.1
  -- with fewer turns the steps do not reach the length
  have hbefore : ∀ k, 1 ≤ k → k < n → reach ornamentTotal k < length := by
    intro k hk hlt
    by_contra hle
    exact absurd (hleast.2 ⟨hk, Nat.not_lt.1 hle⟩) (Nat.not_le.2 hlt)
  obtain ⟨more, rfl⟩ : ∃ more, n = more + 1 := ⟨n - 1, by omega⟩
  refine ⟨more + 1, turnTicks length ornamentTotal, hleast, ?_, ?_, ?_, ?_⟩
  · have hreal : ¬(first < Pitch.firstReal ∨ second < Pitch.firstReal) :=
      not_or.2 ⟨Nat.not_lt.2 hfirst, Nat.not_lt.2 hsecond⟩
    rw [ornament, if_neg hreal, List.range_eq_range']
    refine congrArg Except.ok ?_
    exact alternate_eq_turns (i := 0) (by simp) (Nat.zero_add _)
      (fun k hk hle => hbefore k hk (by omega)) (by simpa using hreach)
  · intro i hi
    have hlt := hbefore (i + 1) (by omega) (by omega)
    rw [reach_succ] at hlt
    unfold turnTicks
    omega
  · rw [sum_turnTicks, Nat.min_eq_right hreach]
  · intro hlength
    have hlt : reach ornamentTotal more < length := by
      rcases Nat.eq_zero_or_pos more with rfl | hmore
      · exact hlength
      · exact hbefore more hmore (by omega)
    have hstep : 1 ≤ ornamentStep ornamentTotal more := Nat.le_max_left _ _
    simp only [Nat.add_sub_cancel, turnTicks]
    omega

/-- Five ticks are exactly the first four steps of a total of 1000: one, one, two and one. -/
theorem ornament_in_turns_exact_steps :
    Pitch.firstReal ≤ 20 ∧ Pitch.firstReal ≤ 74 ∧
      ornament [.pitch 20, .glyph .ornament, .pitch 74] 5 1000 0 =
        .ok [.on 20, .delay 1, .off 20, .on 74, .delay 1, .off 74,
          .on 20, .delay 2, .off 20, .on 74, .delay 1, .off 74] := by
  have hfirst : Pitch.firstReal ≤ 20 := by decide
  have hsecond : Pitch.firstReal ≤ 74 := by decide
  obtain ⟨n, delays, hleast, hornament, hwhole, hsum, -⟩ :=
    ornament_in_turns hfirst hsecond 5 1000 0
  have hfour : n = 4 := by
    refine hleast.unique ⟨⟨by decide, by decide⟩, fun k hk => ?_⟩
    by_contra hlt
    have hshort : ∀ k < 4, reach 1000 k < 5 := by decide
    exact absurd hk.2 (Nat.not_le.2 (hshort k (Nat.not_le.1 hlt)))
  subst hfour
  have h0 : delays 0 = 1 := hwhole 0 (by decide)
  have h1 : delays 1 = 1 := hwhole 1 (by decide)
  have h2 : delays 2 = 2 := hwhole 2 (by decide)
  have h3 : delays 3 = 1 := by
    simp only [List.range_succ, List.range_zero, List.nil_append, List.cons_append, List.map_cons,
      List.map_nil, List.sum_cons, List.sum_nil, h0, h1, h2] at hsum
    omega
  refine ⟨hfirst, hsecond, hornament.trans ?_⟩
  simp [List.range_succ, turn, h0, h1, h2, h3]

end RhythmTiles.Chord
