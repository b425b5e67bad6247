import RhythmTiles.Proofs.Chord.Length
import RhythmTiles.Proofs.Track.Closed

/-!
# Chords leave no note open

A group puts each of its notes on once and off once, however it is played and however often it has the
same pitch. So the track of every chord is closed (`closed_expand`).
-/

namespace RhythmTiles.Chord

open Track

theorem countAfter?_map_on (p : Pitch) (count : Nat) (ps : List Pitch) :
    countAfter? p count (ps.map .on) = some (count + ps.count p) := by
  induction ps generalizing count with
  | nil => rfl
  | cons q ps ih =>
    rw [List.map_cons, countAfter?, ih]
    by_cases hq : q = p
    · rw [if_pos hq, hq, List.count_cons_self]
      congr 1
      omega
    · rw [if_neg hq, List.count_cons_of_ne hq]

/-- Ends find their notes, if so many are open. -/
theorem countAfter?_map_off {p : Pitch} {count : Nat} {ps : List Pitch} (h : ps.count p ≤ count) :
    countAfter? p count (ps.map .off) = some (count - ps.count p) := by
  induction ps generalizing count with
  | nil => rfl
  | cons q ps ih =>
    rw [List.map_cons, countAfter?]
    by_cases hq : q = p
    · subst hq
      rw [List.count_cons_self] at h ⊢
      rw [if_pos rfl, if_neg (by omega), ih (by omega)]
      congr 1
      omega
    · rw [List.count_cons_of_ne hq] at h ⊢
      rw [if_neg hq, ih h]

/-- A staggered group opens its notes and closes none. -/
theorem countAfter?_stagger (p : Pitch) (before : Nat) (style : Arpeggio) (length count : Nat)
    (carry : Carry) (remaining : Nat) (group : List Entry) :
    countAfter? p before (stagger style length count carry remaining group) =
      some (before + (pitches group).count p) := by
  fun_induction stagger style length count carry remaining group generalizing before with
  | case1 carry remaining => rfl
  | case2 carry remaining q group ih =>
    have hpitches : pitches (.pitch q :: group) = q :: pitches group := rfl
    rw [countAfter?, ih, hpitches]
    by_cases hq : q = p
    · rw [if_pos hq, hq, List.count_cons_self]
      congr 1
      omega
    · rw [if_neg hq, List.count_cons_of_ne hq]
  | case3 carry remaining style' group share carry' hslice taken ih => exact ih before
  | case4 carry remaining g group hne ih => exact ih before

theorem closed_together (group : List Entry) (length : Nat) : Closed (together group length) := by
  rw [closed_iff]
  intro p
  rw [together, countAfter?_append, countAfter?_map_on, Option.bind_some, countAfter?,
    countAfter?_map_off (Nat.le_add_left _ _), Nat.zero_add, Nat.sub_self]

theorem closed_arpeggio (style : Arpeggio) (group : List Entry) (length : Nat) :
    Closed (arpeggio style group length) := by
  rw [closed_iff]
  intro p
  rw [arpeggio, countAfter?_append, countAfter?_stagger, Option.bind_some,
    countAfter?_map_off (Nat.le_add_left _ _), Nat.zero_add, Nat.sub_self]

theorem closed_note (p : Pitch) (t : Nat) : Closed [.on p, .delay t, .off p] := by
  simp [Closed, openAfter?, closeNote]

theorem closed_alternate (first second : Pitch) (ornamentTotal : Nat) (carry : Carry)
    (sounding : Pitch) (remaining : Nat) :
    Closed (alternate first second ornamentTotal carry sounding remaining) := by
  fun_induction alternate first second ornamentTotal carry sounding remaining with
  | case1 carry sounding remaining => exact closed_note sounding remaining
  | case2 carry sounding remaining share step hstep ih => exact (closed_note sounding step).append ih

theorem closed_expandGroup {ornamentTotal position : Nat} {group : List Entry} {length : Nat}
    {track : Track} (h : expandGroup ornamentTotal position group length = .ok track) :
    Closed track := by
  unfold expandGroup at h
  split at h
  · cases h
    exact closed_together group length
  · cases h
    exact closed_arpeggio _ group length
  · unfold ornament at h
    split at h
    · split at h
      · cases h
      · cases h
        exact closed_alternate _ _ _ _ _ _
    · cases h

theorem closed_expandGroups {ornamentTotal position : Nat} {shares : List (List Entry × Nat)}
    {track : Track} (h : expandGroups ornamentTotal position shares = .ok track) : Closed track := by
  induction shares generalizing track with
  | nil =>
    cases h
    exact closed_nil
  | cons share shares ih =>
    obtain ⟨head, hhead, h⟩ := Outcome.bind_eq_ok.1 h
    obtain ⟨rest, hrest, h⟩ := Outcome.bind_eq_ok.1 h
    cases h
    exact (closed_expandGroup hhead).append (ih hrest)

/-- **A chord leaves no note open.** -/
theorem closed_expand {entries : List Entry} {length ornamentTotal position : Nat} {track : Track}
    (h : expand entries length ornamentTotal position = .ok track) : Closed track := by
  obtain ⟨_, _, h⟩ := Outcome.bind_eq_ok.1 h
  exact closed_expandGroups h

end RhythmTiles.Chord
