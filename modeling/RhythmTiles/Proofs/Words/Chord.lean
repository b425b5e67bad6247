import RhythmTiles.Proofs.Chord.Notes
import RhythmTiles.Proofs.Words.Arithmetic

/-!
# Playing a chord on words

A chord played with lengths, counts and remainders in 64-bit words. With a length up to the tick limit
and fewer than 2^32 entries no result exceeds a word: three times the length and twenty times the
count do not, and the step of an ornament is no more than its total over 720, rounded up. Main theorem:
`expand_ofNat`.
-/

namespace RhythmTiles.Words

open Chord

/-! ## Definitions -/

def slice (policy : Overflow) (style : Arpeggio) (left length count : UInt64) :
    Except Stop (UInt64 × UInt64) :=
  match style with
  | .roll =>
    if count ≤ 1 then divide policy left length 10
    else do
      let others ← sub policy count 1
      let divisor ← mul policy 10 others
      divide policy left length divisor
  | .spread => do
    let total ← mul policy 3 length
    let divisor ← mul policy 10 count
    divide policy left total divisor
  | .quick => do
    let total ← mul policy 3 length
    let divisor ← mul policy 20 count
    divide policy left total divisor

def stagger (policy : Overflow) (style : Arpeggio) (length count left remaining : UInt64) :
    List Entry → Except Stop Track
  | [] => .ok [.delay remaining.toNat]
  | .pitch p :: group => do
    let track ← stagger policy style length count left remaining group
    pure (.on p :: track)
  | .glyph (.arpeggio _) :: group => do
    let share ← slice policy style left length count
    let taken := min share.1 remaining
    let remaining ← sub policy remaining taken
    let track ← stagger policy style length count share.2 remaining group
    pure (.delay taken.toNat :: track)
  | .glyph _ :: group => stagger policy style length count left remaining group

def arpeggio (policy : Overflow) (style : Arpeggio) (group : List Entry) (length : UInt64) :
    Except Stop Track := do
  let track ← stagger policy style length (.ofNat (group.countP Entry.isArpeggio)) 0 length group
  pure (track ++ (pitches group).map .off)

def alternate (policy : Overflow) (first second : Pitch) (ornamentTotal left : UInt64)
    (sounding : Pitch) (remaining : UInt64) : Except Stop Track := do
  let share ← divide policy left ornamentTotal 720
  let step := max 1 share.1
  if remaining ≤ step then pure [.on sounding, .delay remaining.toNat, .off sounding]
  else
    match _ : sub policy remaining step with
    | .error stop => .error stop
    | .ok rest => do
      let track ← alternate policy first second ornamentTotal share.2
        (if sounding = first then second else first) rest
      pure (.on sounding :: .delay step.toNat :: .off sounding :: track)
termination_by remaining.toNat
decreasing_by
  rename_i hlast hrest
  rw [UInt64.le_iff_toNat_le] at hlast
  have hpos : 1 ≤ step.toNat := by
    simp only [step, UInt64.toNat_max, UInt64.toNat_one]
    omega
  rw [sub_eq_ok hrest, UInt64.toNat_sub_of_le _ _ (UInt64.le_iff_toNat_le.2 (by omega))]
  omega

def ornament (policy : Overflow) (group : List Entry) (length ornamentTotal : UInt64)
    (position : Nat) : Except Stop Track :=
  match group with
  | [.pitch first, .glyph .ornament, .pitch second] =>
    if first < Pitch.firstReal ∨ second < Pitch.firstReal then
      .error (.fault (.misread position .unplayableOrnament))
    else alternate policy first second ornamentTotal 0 first length
  | _ => .error (.fault (.misread position .malformedOrnament))

def expandGroup (policy : Overflow) (ornamentTotal : UInt64) (position : Nat) (group : List Entry)
    (length : UInt64) : Except Stop Track :=
  match arrangement group with
  | .together => .ok (together group length.toNat)
  | .arpeggio style => arpeggio policy style group length
  | .ornament => ornament policy group length ornamentTotal position

/-- Groups one after the other, each with its share of the length. -/
def expandGroups (policy : Overflow) (ornamentTotal : UInt64) (position : Nat)
    (length count left : UInt64) : List (List Entry) → Except Stop Track
  | [] => .ok []
  | group :: groups => do
    let share ← divide policy left length count
    let track ← expandGroup policy ornamentTotal position group share.1
    let rest ← expandGroups policy ornamentTotal position length count share.2 groups
    pure (track ++ rest)

def expand (policy : Overflow) (entries : List Entry) (length ornamentTotal : UInt64)
    (position : Nat) : Except Stop Track := do
  (check position entries).mapError .fault
  let groups := groups entries
  expandGroups policy ornamentTotal position length (.ofNat groups.length) 0 groups

variable {policy : Overflow}

/-! ## Arpeggios -/

theorem slice_ofNat {style : Arpeggio} {carry : Carry} {length count : Nat}
    (hlength : length ≤ maxTicks) (hcount : count < 2 ^ 32)
    (h : carry.remainder < divisor style count) :
    slice policy style (.ofNat carry.remainder) (.ofNat length) (.ofNat count) =
      .ok (.ofNat (Chord.slice style carry length count).1,
        .ofNat (Chord.slice style carry length count).2.remainder) := by
  unfold maxTicks at hlength
  have hone : (1 : UInt64) = .ofNat 1 := rfl
  have hthree : (3 : UInt64) = .ofNat 3 := rfl
  have hten : (10 : UInt64) = .ofNat 10 := rfl
  have htwenty : (20 : UInt64) = .ofNat 20 := rfl
  cases style with
  | roll =>
    simp only [divisor] at h
    have hword : count < 2 ^ 64 := by omega
    rw [slice, Chord.slice, hone, hten]
    by_cases hfew : count ≤ 1
    · have hmax : max 1 (count - 1) = 1 := by omega
      rw [hmax] at h ⊢
      rw [if_pos ((UInt64.ofNat_le_iff_le hword (by decide)).2 hfew)]
      exact divide_ofNat (by omega) (by omega) h
    · have hmax : max 1 (count - 1) = count - 1 := by omega
      rw [hmax] at h ⊢
      rw [if_neg (by rwa [UInt64.ofNat_le_iff_le hword (by decide)]),
        sub_ofNat (by omega) (by omega), ok_bind, mul_ofNat (by omega), ok_bind]
      exact divide_ofNat (by omega) (by omega) h
  | spread =>
    rw [slice, Chord.slice, hthree, hten, mul_ofNat (by omega), ok_bind, mul_ofNat (by omega), ok_bind]
    exact divide_ofNat (by omega) (by omega) h
  | quick =>
    rw [slice, Chord.slice, hthree, htwenty, mul_ofNat (by omega), ok_bind, mul_ofNat (by omega),
      ok_bind]
    exact divide_ofNat (by omega) (by omega) h

theorem slice_bounds {style : Arpeggio} {carry : Carry} {length count : Nat}
    (hlength : length ≤ maxTicks) (h : carry.remainder < divisor style count) :
    (Chord.slice style carry length count).1 < 2 ^ 64 ∧
      (Chord.slice style carry length count).2.remainder < divisor style count := by
  have htotal : total style length ≤ 3 * maxTicks := by
    cases style <;> simp only [total] <;> omega
  have hle := Carry.divide_le (total style length) h
  rw [slice_eq]
  refine ⟨?_, Carry.divide_lt _ h⟩
  unfold maxTicks at htotal
  omega

theorem stagger_ofNat {style : Arpeggio} {length count : Nat} {carry : Carry} {remaining : Nat}
    {group : List Entry} (hlength : length ≤ maxTicks) (hcount : count < 2 ^ 32)
    (h : 0 < group.countP Entry.isArpeggio → carry.remainder < divisor style count)
    (hremaining : remaining < 2 ^ 64) :
    stagger policy style (.ofNat length) (.ofNat count) (.ofNat carry.remainder) (.ofNat remaining)
      group = .ok (Chord.stagger style length count carry remaining group) := by
  induction group generalizing carry remaining with
  | nil =>
    rw [stagger, Chord.stagger, UInt64.toNat_ofNat_of_lt' hremaining]
  | cons entry group ih =>
    rcases entry with p | g
    · rw [stagger, Chord.stagger, ih h hremaining]
      rfl
    · cases g with
      | arpeggio style' =>
        rw [List.countP_cons_of_pos rfl] at h
        have hcarry := h (Nat.succ_pos _)
        obtain ⟨hshare, hleft⟩ := slice_bounds hlength hcarry
        rw [stagger, Chord.stagger, slice_ofNat hlength hcount hcarry, ok_bind]
        simp only [ofNat_min hshare hremaining]
        rw [sub_ofNat hremaining (Nat.min_le_right _ _), ok_bind,
          UInt64.toNat_ofNat_of_lt' (min_lt_of_right_lt hremaining), ih (fun _ => hleft) (by omega)]
        rfl
      | separator | divider | ornament => exact ih h hremaining

theorem arpeggio_ofNat {style : Arpeggio} {group : List Entry} {length : Nat}
    (hlength : length ≤ maxTicks) (hcount : group.length < 2 ^ 32) :
    arpeggio policy style group (.ofNat length) = .ok (Chord.arpeggio style group length) := by
  have hle : group.countP Entry.isArpeggio ≤ group.length := List.countP_le_length
  have hword : length < 2 ^ 64 := by
    unfold maxTicks at hlength
    omega
  have hstagger : stagger policy style (.ofNat length) (.ofNat (group.countP Entry.isArpeggio)) 0
      (.ofNat length) group =
        .ok (Chord.stagger style length (group.countP Entry.isArpeggio) {} length group) :=
    stagger_ofNat hlength (by omega) (fun hpos => divisor_pos style hpos) hword
  rw [arpeggio, Chord.arpeggio]
  exact congrArg (· >>= _) hstagger

/-! ## Ornaments -/

theorem alternate_ofNat {first second : Pitch} {ornamentTotal : Nat} {carry : Carry}
    {sounding : Pitch} {remaining : Nat} (htotal : ornamentTotal < 2 ^ 64)
    (hremaining : remaining < 2 ^ 64) (h : carry.remainder < ornamentDivisor) :
    alternate policy first second (.ofNat ornamentTotal) (.ofNat carry.remainder) sounding
      (.ofNat remaining) =
      .ok (Chord.alternate first second ornamentTotal carry sounding remaining) := by
  induction remaining using Nat.strong_induction_on generalizing carry sounding with
  | _ remaining ih =>
    have hdivisor : (720 : UInt64) = .ofNat ornamentDivisor := rfl
    have hshare := Carry.divide_le ornamentTotal h
    have hleft := Carry.divide_lt ornamentTotal h
    have hmax : max 1 (.ofNat (carry.divide ornamentTotal ornamentDivisor).1) =
        UInt64.ofNat (max 1 (carry.divide ornamentTotal ornamentDivisor).1) :=
      ofNat_max (a := 1) (by omega) (by omega)
    rw [alternate, Chord.alternate, hdivisor,
      divide_ofNat htotal (by decide : ornamentDivisor ≤ 2 ^ 63) h, ok_bind]
    dsimp only
    -- the step is the same number on words, so both loops take it away
    generalize max 1 (UInt64.ofNat (carry.divide ornamentTotal ornamentDivisor).1) = word at hmax ⊢
    subst hmax
    generalize hstep : max 1 (carry.divide ornamentTotal ornamentDivisor).1 = step
    have hword : step < 2 ^ 64 := by omega
    by_cases hlast : remaining ≤ step
    · rw [if_pos ((UInt64.ofNat_le_iff_le hremaining hword).2 hlast), if_pos hlast,
        UInt64.toNat_ofNat_of_lt' hremaining]
      rfl
    · have hsub : sub policy (.ofNat remaining) (.ofNat step) = .ok (.ofNat (remaining - step)) :=
        sub_ofNat hremaining (by omega)
      rw [if_neg (by rwa [UInt64.ofNat_le_iff_le hremaining hword]), if_neg hlast,
        UInt64.toNat_ofNat_of_lt' hword]
      split
      · rename_i stop hstop
        rw [hsub] at hstop
        cases hstop
      · rename_i rest hrest
        rw [hsub] at hrest
        cases hrest
        rw [ih (remaining - step) (by omega) (by omega) hleft]
        rfl

theorem ornament_ofNat {group : List Entry} {length ornamentTotal position : Nat}
    (htotal : ornamentTotal < 2 ^ 64) (hlength : length < 2 ^ 64) :
    ornament policy group (.ofNat length) (.ofNat ornamentTotal) position =
      faulting id (Chord.ornament group length ornamentTotal position) := by
  unfold Chord.ornament
  split
  · rename_i first second
    rw [ornament]
    by_cases hreal : first < Pitch.firstReal ∨ second < Pitch.firstReal
    · rw [if_pos hreal, if_pos hreal]
      rfl
    · rw [if_neg hreal, if_neg hreal]
      have hstart : (Carry.mk 0).remainder < ornamentDivisor := by decide
      exact alternate_ofNat htotal hlength hstart
  · rename_i hshape
    unfold ornament
    split
    · exact absurd rfl (hshape _ _)
    · rfl

/-! ## Groups -/

theorem expandGroup_ofNat {ornamentTotal position : Nat} {group : List Entry} {length : Nat}
    (htotal : ornamentTotal < 2 ^ 64) (hlength : length ≤ maxTicks) (hcount : group.length < 2 ^ 32) :
    expandGroup policy (.ofNat ornamentTotal) position group (.ofNat length) =
      faulting id (Chord.expandGroup ornamentTotal position group length) := by
  have hword : length < 2 ^ 64 := by
    unfold maxTicks at hlength
    omega
  unfold expandGroup Chord.expandGroup
  cases arrangement group with
  | together =>
    simp only [UInt64.toNat_ofNat_of_lt' hword]
    rfl
  | arpeggio style => exact arpeggio_ofNat hlength hcount
  | ornament => exact ornament_ofNat htotal hword

/-- The shares are handed out on the way. -/
theorem expandGroups_ofNat {ornamentTotal position length count : Nat} {carry : Carry}
    {groups : List (List Entry)} (htotal : ornamentTotal < 2 ^ 64) (hlength : length ≤ maxTicks)
    (hcount : count < 2 ^ 63) (h : carry.remainder < count)
    (hgroups : ∀ group ∈ groups, group.length < 2 ^ 32) :
    expandGroups policy (.ofNat ornamentTotal) position (.ofNat length) (.ofNat count)
      (.ofNat carry.remainder) groups =
      faulting id (Chord.expandGroups ornamentTotal position
        (groups.zip (carry.divideAll (.replicate groups.length (length, count))).1)) := by
  induction groups generalizing carry with
  | nil => rfl
  | cons group groups ih =>
    obtain ⟨hgroup, hgroups⟩ := List.forall_mem_cons.1 hgroups
    have hword : length < 2 ^ 64 := by
      unfold maxTicks at hlength
      omega
    have hshare := (Carry.divide_le length h).trans hlength
    rw [List.length_cons, List.replicate_succ, Carry.divideAll, List.zip_cons_cons, expandGroups,
      Chord.expandGroups, divide_ofNat hword hcount.le h, ok_bind, expandGroup_ofNat htotal hshare hgroup]
    refine bind_faulting fun track _ => ?_
    rw [ih (Carry.divide_lt length h) hgroups]
    exact bind_faulting fun rest _ => rfl

/-- **A chord on words is the chord.** -/
theorem expand_ofNat {entries : List Entry} {length ornamentTotal position : Nat}
    (htotal : ornamentTotal < 2 ^ 64) (hlength : length ≤ maxTicks)
    (hcount : entries.length < 2 ^ 32) :
    expand policy entries (.ofNat length) (.ofNat ornamentTotal) position =
      faulting id (Chord.expand entries length ornamentTotal position) := by
  have hgroups : (groups entries).length ≤ entries.length + 1 := by
    rw [length_groups]
    exact Nat.succ_le_succ List.countP_le_length
  have hpos : 0 < (groups entries).length := List.length_pos_iff.2 (groups_ne_nil entries)
  unfold expand Chord.expand
  rw [← faulting_id]
  refine bind_faulting fun _ _ => ?_
  refine expandGroups_ofNat htotal hlength (by omega) hpos fun group hgroup => ?_
  exact Nat.lt_of_le_of_lt (sublist_of_mem_groups hgroup).length_le hcount

end RhythmTiles.Words
