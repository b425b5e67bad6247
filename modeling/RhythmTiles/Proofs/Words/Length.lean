import RhythmTiles.Proofs.Words.Chord

/-!
# The length of a chord on words

A chord that is played on words lasts as long as its length, like one on natural numbers. What an
arpeggio or an ornament takes for a note it takes from what remains, and the rest follows at the end
(`ticks_stagger`, `ticks_alternate`), so a slice or a step that overflows moves notes but loses no time.
Only the shares of the groups have to be exact, and they are, unless the number of groups fills a word
to its last bit. Main theorem: `delays_fill_length`.
-/

namespace RhythmTiles.Words

open Chord

variable {policy : Overflow} {group : List Entry} {track : Track}

/-- A difference gives back what was taken. -/
theorem add_toNat_of_sub {a b d : UInt64} (hle : b ≤ a) (h : sub policy a b = .ok d) :
    b.toNat + d.toNat = a.toNat := by
  have hnat : b.toNat ≤ a.toNat := UInt64.le_iff_toNat_le.1 hle
  rw [sub_eq_ok h, UInt64.toNat_sub_of_le _ _ hle]
  omega

/-! ## Groups -/

/-- What is taken for a glyph is taken from what remains. -/
theorem ticks_stagger {style : Arpeggio} {length count left remaining : UInt64}
    (h : stagger policy style length count left remaining group = .ok track) :
    track.ticks = remaining.toNat := by
  induction group generalizing left remaining track with
  | nil =>
    cases h
    exact Nat.add_zero _
  | cons entry group ih =>
    rcases entry with p | g
    · obtain ⟨rest, hrest, h⟩ := Outcome.bind_eq_ok.1 h
      cases h
      rw [Track.ticks_cons, ih hrest]
      exact Nat.zero_add _
    · cases g with
      | arpeggio style' =>
        obtain ⟨share, -, h⟩ := Outcome.bind_eq_ok.1 h
        obtain ⟨remaining', hsub, h⟩ := Outcome.bind_eq_ok.1 h
        obtain ⟨rest, hrest, h⟩ := Outcome.bind_eq_ok.1 h
        cases h
        rw [Track.ticks_cons, ih hrest]
        have htaken : min share.1 remaining ≤ remaining := by
          rw [UInt64.le_iff_toNat_le, UInt64.toNat_min]
          exact Nat.min_le_right _ _
        exact add_toNat_of_sub htaken hsub
      | separator | divider | ornament => exact ih h

theorem ticks_arpeggio {style : Arpeggio} {length : UInt64}
    (h : arpeggio policy style group length = .ok track) : track.ticks = length.toNat := by
  obtain ⟨notes, hnotes, h⟩ := Outcome.bind_eq_ok.1 h
  cases h
  rw [Track.ticks_append, ticks_stagger hnotes, ticks_map_off, Nat.add_zero]

/-- What a turn takes it takes from what remains. -/
theorem ticks_alternate {first second sounding : Pitch} {ornamentTotal left remaining : UInt64}
    (h : alternate policy first second ornamentTotal left sounding remaining = .ok track) :
    track.ticks = remaining.toNat := by
  induction hn : remaining.toNat using Nat.strong_induction_on
    generalizing left sounding remaining track with
  | _ n ih =>
    rw [alternate] at h
    obtain ⟨share, -, h⟩ := Outcome.bind_eq_ok.1 h
    dsimp only at h
    split at h
    · cases h
      simp [Event.ticks, hn]
    · rename_i hlast
      split at h
      · cases h
      · rename_i rest hsub
        obtain ⟨later, hlater, h⟩ := Outcome.bind_eq_ok.1 h
        cases h
        have hstep : 1 ≤ (max 1 share.1).toNat := by
          rw [UInt64.toNat_max]
          exact Nat.le_max_left _ _
        have hle : max 1 share.1 ≤ remaining := by
          rw [UInt64.le_iff_toNat_le] at hlast ⊢
          omega
        have hsum := add_toNat_of_sub hle hsub
        have hrest := ih rest.toNat (by omega) hlater rfl
        simp only [Track.ticks_cons, Event.ticks, hrest]
        omega

theorem ticks_ornament {length ornamentTotal : UInt64} {position : Nat}
    (h : ornament policy group length ornamentTotal position = .ok track) :
    track.ticks = length.toNat := by
  unfold ornament at h
  split at h
  · split at h
    · cases h
    · exact ticks_alternate h
  · cases h

theorem ticks_expandGroup {length ornamentTotal : UInt64} {position : Nat}
    (h : expandGroup policy ornamentTotal position group length = .ok track) :
    track.ticks = length.toNat := by
  unfold expandGroup at h
  split at h
  · cases h
    exact ticks_together group _
  · exact ticks_arpeggio h
  · exact ticks_ornament h

/-! ## Chords -/

theorem ticks_expandGroups {ornamentTotal : UInt64} {position length count : Nat} {carry : Carry}
    {groups : List (List Entry)} (hlength : length < 2 ^ 64) (hcount : count < 2 ^ 63)
    (hcarry : carry.remainder < count)
    (h : expandGroups policy ornamentTotal position (.ofNat length) (.ofNat count)
      (.ofNat carry.remainder) groups = .ok track) :
    track.ticks = (carry.divideAll (.replicate groups.length (length, count))).1.sum := by
  induction groups generalizing carry track with
  | nil =>
    cases h
    rfl
  | cons group groups ih =>
    rw [expandGroups, divide_ofNat hlength hcount.le hcarry, ok_bind] at h
    obtain ⟨head, hhead, h⟩ := Outcome.bind_eq_ok.1 h
    obtain ⟨rest, hrest, h⟩ := Outcome.bind_eq_ok.1 h
    cases h
    have hshare := (Carry.divide_le length hcarry).trans_lt hlength
    rw [Track.ticks_append, ticks_expandGroup hhead, UInt64.toNat_ofNat_of_lt' hshare,
      ih (Carry.divide_lt length hcarry) hrest, List.length_cons, List.replicate_succ]
    rfl

theorem ticks_expand {entries : List Entry} {length ornamentTotal : UInt64} {position : Nat}
    (hgroups : (groups entries).length < 2 ^ 63)
    (h : expand policy entries length ornamentTotal position = .ok track) :
    track.ticks = length.toNat := by
  obtain ⟨_, -, h⟩ := Outcome.bind_eq_ok.1 h
  have hpos : 0 < (groups entries).length := List.length_pos_iff.2 (groups_ne_nil entries)
  have hword : length = .ofNat length.toNat := UInt64.ofNat_toNat.symm
  have hstart : (Carry.mk 0).remainder < (groups entries).length := hpos
  dsimp only at h
  rw [hword] at h
  exact (ticks_expandGroups length.toNat_lt hgroups hstart h).trans (Carry.sum_shares hpos)

/-- **The delays of a chord add up to its length**, whatever it is made of, on natural numbers and, if
its groups are fewer than 2^63, on words. -/
theorem delays_fill_length {entries : List Entry} {position : Nat} {track : Track} :
    (∀ length ornamentTotal,
      Chord.expand entries length ornamentTotal position = .ok track → track.ticks = length) ∧
    ((groups entries).length < 2 ^ 63 → ∀ policy length ornamentTotal,
      expand policy entries length ornamentTotal position = .ok track →
        track.ticks = length.toNat) :=
  ⟨fun _ _ h => Chord.ticks_expand h, fun hgroups _ _ _ h => ticks_expand hgroups h⟩

/-- One tick for an arpeggio of three glyphs, and two for the silent group behind it; on words three
times the share of the arpeggio wraps around. -/
theorem delays_fill_length_wrapping :
    let spread : Entry := .glyph (.arpeggio .spread)
    let entries : List Entry :=
      [.pitch 60, spread, .pitch 62, spread, spread, .pitch 64, .glyph .divider]
    (∃ track, Chord.expand entries 3 720 0 = .ok track ∧ track.ticks = 3) ∧
      (groups entries).length < 2 ^ 63 ∧
      ∃ track, expand .wrap entries 0xFFFFFFFFFFFFFFFF 720 0 = .ok track ∧
        track.ticks = 0xFFFFFFFFFFFFFFFF := by
  intro spread entries
  obtain ⟨track, htrack⟩ : ∃ track, Chord.expand entries 3 720 0 = .ok track := ⟨_, rfl⟩
  have hgroups : (groups entries).length < 2 ^ 63 := by decide
  have hok : (expand .wrap entries 0xFFFFFFFFFFFFFFFF 720 0).toOption.isSome = true := by
    decide +kernel
  refine ⟨⟨track, htrack, delays_fill_length.1 3 720 htrack⟩, hgroups, ?_⟩
  cases hword : expand .wrap entries 0xFFFFFFFFFFFFFFFF 720 0 with
  | error stop =>
    rw [hword] at hok
    cases hok
  | ok track => exact ⟨track, rfl, delays_fill_length.2 hgroups _ _ _ hword⟩

end RhythmTiles.Words
