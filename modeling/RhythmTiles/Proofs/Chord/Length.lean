import RhythmTiles.Chord
import RhythmTiles.Proofs.Outcome
import RhythmTiles.Proofs.Shares
import RhythmTiles.Proofs.Track.Reading

/-!
# What a chord becomes

However a chord is played, its delays add up to its length (`ticks_expand`), it puts on no pitch that
is not among its entries (`on_mem_expand`), and where it stands matters to nothing but its faults
(`expand_position`).
-/

namespace RhythmTiles.Chord

/-! ## Lengths -/

theorem ticks_map_on (ps : List Pitch) : Track.ticks (ps.map .on) = 0 := by
  induction ps with
  | nil => rfl
  | cons p ps ih => simp [ih, Event.ticks]

theorem ticks_map_off (ps : List Pitch) : Track.ticks (ps.map .off) = 0 := by
  induction ps with
  | nil => rfl
  | cons p ps ih => simp [ih, Event.ticks]

theorem ticks_together (group : List Entry) (length : Nat) :
    (together group length).ticks = length := by
  simp [together, ticks_map_on, ticks_map_off, Event.ticks]

/-- Slices come out of what remains, and the end rings for the rest. -/
theorem ticks_stagger (style : Arpeggio) (length count : Nat) (carry : Carry) (remaining : Nat)
    (group : List Entry) : (stagger style length count carry remaining group).ticks = remaining := by
  fun_induction stagger style length count carry remaining group with
  | case1 carry remaining => simp [Event.ticks]
  | case2 carry remaining p group ih => simpa [Event.ticks] using ih
  | case3 carry remaining style' group share carry' hslice taken ih =>
    have htaken : taken ≤ remaining := Nat.min_le_right _ _
    simp only [Track.ticks_cons, Event.ticks, ih]
    omega
  | case4 carry remaining g group hne ih => exact ih

theorem ticks_arpeggio (style : Arpeggio) (group : List Entry) (length : Nat) :
    (arpeggio style group length).ticks = length := by
  simp [arpeggio, ticks_stagger, ticks_map_off]

theorem ticks_alternate (first second : Pitch) (ornamentTotal : Nat) (carry : Carry)
    (sounding : Pitch) (remaining : Nat) :
    (alternate first second ornamentTotal carry sounding remaining).ticks = remaining := by
  fun_induction alternate first second ornamentTotal carry sounding remaining with
  | case1 => simp [Event.ticks]
  | case2 carry sounding remaining share step hstep ih =>
    have htail : (alternate first second ornamentTotal share.2
        (if sounding = first then second else first) (remaining - step)).ticks = remaining - step := by
      simpa using ih
    simp only [Track.ticks_cons, Event.ticks, htail]
    omega

theorem ticks_ornament {group : List Entry} {length ornamentTotal position : Nat} {track : Track}
    (h : ornament group length ornamentTotal position = .ok track) : track.ticks = length := by
  unfold ornament at h
  split at h
  · split at h
    · cases h
    · cases h
      exact ticks_alternate _ _ _ _ _ _
  · cases h

theorem ticks_expandGroup {ornamentTotal position : Nat} {group : List Entry} {length : Nat}
    {track : Track} (h : expandGroup ornamentTotal position group length = .ok track) :
    track.ticks = length := by
  unfold expandGroup at h
  split at h
  · cases h
    exact ticks_together group length
  · cases h
    exact ticks_arpeggio _ group length
  · exact ticks_ornament h

theorem ticks_expandGroups {ornamentTotal position : Nat} {shares : List (List Entry × Nat)}
    {track : Track} (h : expandGroups ornamentTotal position shares = .ok track) :
    track.ticks = (shares.map Prod.snd).sum := by
  induction shares generalizing track with
  | nil => cases h; rfl
  | cons share shares ih =>
    obtain ⟨group, length⟩ := share
    obtain ⟨head, hhead, h⟩ := Outcome.bind_eq_ok.1 h
    obtain ⟨rest, hrest, h⟩ := Outcome.bind_eq_ok.1 h
    cases h
    simp [ticks_expandGroup hhead, ih hrest]

theorem groups_ne_nil (entries : List Entry) : groups entries ≠ [] :=
  List.splitOnP_ne_nil _ entries

/-- **A chord lasts exactly its length.** -/
theorem ticks_expand {entries : List Entry} {length ornamentTotal position : Nat} {track : Track}
    (h : expand entries length ornamentTotal position = .ok track) : track.ticks = length := by
  obtain ⟨_, _, h⟩ := Outcome.bind_eq_ok.1 h
  have hpos : 0 < (groups entries).length := List.length_pos_iff.2 (groups_ne_nil entries)
  rw [ticks_expandGroups h, List.map_snd_zip (by simp)]
  exact Carry.sum_shares hpos

/-! ## Pitches -/

theorem on_mem_stagger {style : Arpeggio} {length count : Nat} {carry : Carry} {remaining : Nat}
    {group : List Entry} {p : Pitch}
    (h : Event.on p ∈ stagger style length count carry remaining group) : Entry.pitch p ∈ group := by
  fun_induction stagger style length count carry remaining group with
  | case1 => simp at h
  | case2 carry remaining q group ih =>
    rcases List.mem_cons.1 h with h | h
    · cases h
      exact List.mem_cons_self
    · exact List.mem_cons_of_mem _ (ih h)
  | case3 carry remaining style' group share carry' hslice taken ih =>
    rcases List.mem_cons.1 h with h | h
    · cases h
    · exact List.mem_cons_of_mem _ (ih h)
  | case4 carry remaining g group hne ih => exact List.mem_cons_of_mem _ (ih h)

theorem on_mem_alternate {first second : Pitch} {ornamentTotal : Nat} {carry : Carry}
    {sounding : Pitch} {remaining : Nat} {p : Pitch}
    (h : Event.on p ∈ alternate first second ornamentTotal carry sounding remaining) :
    p = sounding ∨ p = first ∨ p = second := by
  fun_induction alternate first second ornamentTotal carry sounding remaining with
  | case1 => simp at h; exact Or.inl h
  | case2 carry sounding remaining share step hstep ih =>
    simp only [List.mem_cons, Event.on.injEq, reduceCtorEq, false_or] at h
    rcases h with h | h
    · exact Or.inl h
    · rcases ih h with h | h
      · split at h
        · exact Or.inr (Or.inr h)
        · exact Or.inr (Or.inl h)
      · exact Or.inr h

theorem on_mem_expandGroup {ornamentTotal position : Nat} {group : List Entry} {length : Nat}
    {track : Track} (h : expandGroup ornamentTotal position group length = .ok track) {p : Pitch}
    (hp : Event.on p ∈ track) : Entry.pitch p ∈ group := by
  have hpitches : p ∈ pitches group → Entry.pitch p ∈ group := by
    intro hmem
    obtain ⟨entry, hentry, he⟩ := List.mem_filterMap.1 hmem
    cases entry with
    | pitch q => cases he; exact hentry
    | glyph g => cases he
  unfold expandGroup at h
  split at h
  · cases h
    exact hpitches (by simpa [together] using hp)
  · cases h
    rcases List.mem_append.1 hp with hp | hp
    · exact on_mem_stagger hp
    · simp at hp
  · unfold ornament at h
    split at h
    · split at h
      · cases h
      · cases h
        rcases on_mem_alternate hp with rfl | rfl | rfl <;> simp
    · cases h

theorem on_mem_expandGroups {ornamentTotal position : Nat} {shares : List (List Entry × Nat)}
    {track : Track} (h : expandGroups ornamentTotal position shares = .ok track) {p : Pitch}
    (hp : Event.on p ∈ track) : ∃ share ∈ shares, Entry.pitch p ∈ share.1 := by
  induction shares generalizing track with
  | nil => cases h; cases hp
  | cons share shares ih =>
    obtain ⟨group, length⟩ := share
    obtain ⟨head, hhead, h⟩ := Outcome.bind_eq_ok.1 h
    obtain ⟨rest, hrest, h⟩ := Outcome.bind_eq_ok.1 h
    cases h
    rcases List.mem_append.1 hp with hp | hp
    · exact ⟨(group, length), List.mem_cons_self, on_mem_expandGroup hhead hp⟩
    · obtain ⟨share, hshare, he⟩ := ih hrest hp
      exact ⟨share, List.mem_cons_of_mem _ hshare, he⟩

/-- The entries of a group stand in the chord in their order. -/
theorem sublist_of_mem_groups {entries group : List Entry} (h : group ∈ groups entries) :
    group.Sublist entries := by
  unfold groups at h
  induction entries generalizing group with
  | nil =>
    rw [List.splitOnP_nil, List.mem_singleton] at h
    rw [h]
  | cons entry entries ih =>
    rw [List.splitOnP_cons_eq_if_modifyHead] at h
    split at h
    · rcases List.mem_cons.1 h with rfl | h
      · exact List.nil_sublist _
      · exact (ih h).cons _
    · cases hsplit : entries.splitOnP Entry.isDivider with
      | nil => exact absurd hsplit (List.splitOnP_ne_nil _ entries)
      | cons first others =>
        rw [hsplit] at h ih
        rcases List.mem_cons.1 h with rfl | h
        · exact (ih List.mem_cons_self).cons_cons _
        · exact (ih (List.mem_cons_of_mem _ h)).cons _

theorem mem_of_mem_groups {entries group : List Entry} (h : group ∈ groups entries) {e : Entry}
    (he : e ∈ group) : e ∈ entries :=
  (sublist_of_mem_groups h).subset he

/-- A chord puts on the pitches of its entries only. -/
theorem on_mem_expand {entries : List Entry} {length ornamentTotal position : Nat} {track : Track}
    (h : expand entries length ornamentTotal position = .ok track) {p : Pitch}
    (hp : Event.on p ∈ track) : Entry.pitch p ∈ entries := by
  obtain ⟨_, _, h⟩ := Outcome.bind_eq_ok.1 h
  obtain ⟨⟨group, share⟩, hshare, he⟩ := on_mem_expandGroups h hp
  exact mem_of_mem_groups (List.of_mem_zip hshare).1 he

/-! ## Positions -/

theorem checkKinds_position {position : Nat} {kind : Option Arrangement} {entries : List Entry}
    (h : checkKinds position kind entries = .ok ()) (other : Nat) :
    checkKinds other kind entries = .ok () := by
  induction entries generalizing kind with
  | nil => rfl
  | cons entry entries ih =>
    unfold checkKinds at h ⊢
    split at h
    · exact ih h
    · exact ih h
    · split at h
      · rename_i hsame
        rw [if_pos hsame]
        exact ih h
      · cases h

theorem check_position {position : Nat} {entries : List Entry} (h : check position entries = .ok ())
    (other : Nat) : check other entries = .ok () := by
  obtain ⟨_, hkinds, h⟩ := Outcome.bind_eq_ok.1 h
  refine Outcome.bind_eq_ok.2 ⟨(), checkKinds_position hkinds other, ?_⟩
  split at h
  · cases h
  · rename_i hone
    rw [if_neg hone]
    rfl

theorem expandGroup_position {ornamentTotal position : Nat} {group : List Entry} {length : Nat}
    {track : Track} (h : expandGroup ornamentTotal position group length = .ok track) (other : Nat) :
    expandGroup ornamentTotal other group length = .ok track := by
  unfold expandGroup at h ⊢
  split at h
  · exact h
  · exact h
  · unfold ornament at h ⊢
    split at h
    · split at h
      · cases h
      · rename_i hreal
        rw [if_neg hreal]
        exact h
    · cases h

theorem expandGroups_position {ornamentTotal position : Nat} {shares : List (List Entry × Nat)}
    {track : Track} (h : expandGroups ornamentTotal position shares = .ok track) (other : Nat) :
    expandGroups ornamentTotal other shares = .ok track := by
  induction shares generalizing track with
  | nil => exact h
  | cons share shares ih =>
    obtain ⟨head, hhead, h⟩ := Outcome.bind_eq_ok.1 h
    obtain ⟨rest, hrest, h⟩ := Outcome.bind_eq_ok.1 h
    exact Outcome.bind_eq_ok.2
      ⟨head, expandGroup_position hhead other, Outcome.bind_eq_ok.2 ⟨rest, ih hrest, h⟩⟩

/-- Where a chord stands changes nothing but the place of its faults. -/
theorem expand_position {entries : List Entry} {length ornamentTotal position : Nat} {track : Track}
    (h : expand entries length ornamentTotal position = .ok track) (other : Nat) :
    expand entries length ornamentTotal other = .ok track := by
  obtain ⟨_, hcheck, h⟩ := Outcome.bind_eq_ok.1 h
  exact Outcome.bind_eq_ok.2 ⟨(), check_position hcheck other, expandGroups_position h other⟩

end RhythmTiles.Chord
